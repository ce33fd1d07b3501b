import Mathlib.Data.List.Basic

/-!
# Calls of a component and what they stand for

A component is a function from a call and a state to a result and a new state, which may
fail. Its specification is the same on abstract states and never fails, but some calls are
not legal in some states. `Simulates f g legal R`: in related states a legal call of the
component does not fail, returns what the specification returns, and leads to related
states again.

* `Simulates.runCalls` — a legal sequence of calls, from any related states;
* `LegalAll.eventually` — when each call is legal from some bound on, so is a sequence.
-/

namespace Simulation

variable {σ τ α ρ ε : Type*}

/-- The calls one after the other, with what each of them returns. -/
def runCalls (f : α → σ → Except ε (ρ × σ)) : List α → σ → Except ε (List ρ × σ)
  | [], s => .ok ([], s)
  | a :: as, s => do
    let (r, s) ← f a s
    let (rs, s) ← runCalls f as s
    return (r :: rs, s)

/-- What the calls do by the specification. -/
def specAll (g : α → τ → ρ × τ) : List α → τ → List ρ × τ
  | [], t => ([], t)
  | a :: as, t =>
    let (r, t) := g a t
    let (rs, t) := specAll g as t
    (r :: rs, t)

/-- Each call is legal in the state it is made in. -/
def LegalAll (g : α → τ → ρ × τ) (legal : α → τ → Prop) : List α → τ → Prop
  | [], _ => True
  | a :: as, t => legal a t ∧ LegalAll g legal as (g a t).2

/-- Every legal call does what the specification says. -/
def Simulates (f : α → σ → Except ε (ρ × σ)) (g : α → τ → ρ × τ) (legal : α → τ → Prop)
    (R : σ → τ → Prop) : Prop :=
  ∀ a s t, R s t → legal a t → ∃ s', f a s = .ok ((g a t).1, s') ∧ R s' (g a t).2

variable {f : α → σ → Except ε (ρ × σ)} {g : α → τ → ρ × τ} {legal : α → τ → Prop}
  {R : σ → τ → Prop}

/-- **Simulation rule.** A legal sequence of calls does what the specification says: each call
returns what it should, and the states stay related. Legality is judged on the side of the
specification, so a user of the rule never has to look at the state of the code. -/
theorem Simulates.runCalls (hsim : Simulates f g legal R) {as : List α} {s : σ} {t : τ}
    (hR : R s t) (hlegal : LegalAll g legal as t) :
    ∃ s', runCalls f as s = .ok ((specAll g as t).1, s') ∧ R s' (specAll g as t).2 := by
  induction as generalizing s t with
  | nil => exact ⟨s, rfl, hR⟩
  | cons a as ih =>
    obtain ⟨ha, has⟩ := hlegal
    obtain ⟨s₁, hcall, hR₁⟩ := hsim a s t hR ha
    obtain ⟨s', hrest, hR'⟩ := ih hR₁ has
    refine ⟨s', ?_, hR'⟩
    unfold Simulation.runCalls
    rw [hcall]
    show (do
      let (rs, s) ← Simulation.runCalls f as s₁
      return ((g a t).1 :: rs, s)) = _
    rw [hrest]
    rfl

/-- A sequence of calls that are each legal from some bound on. -/
theorem LegalAll.eventually {legalFrom : Nat → α → τ → Prop}
    (hfrom : ∀ a t, legal a t → ∃ n, ∀ m ≥ n, legalFrom m a t) {as : List α} {t : τ}
    (hlegal : LegalAll g legal as t) : ∃ n, ∀ m ≥ n, LegalAll g (legalFrom m) as t := by
  induction as generalizing t with
  | nil => exact ⟨0, fun _ _ => trivial⟩
  | cons a as ih =>
    obtain ⟨n, hn⟩ := hfrom a t hlegal.1
    obtain ⟨n', hn'⟩ := ih hlegal.2
    refine ⟨max n n', fun m hm => ⟨hn m ?_, hn' m ?_⟩⟩
    · exact Nat.le_trans (Nat.le_max_left n n') hm
    · exact Nat.le_trans (Nat.le_max_right n n') hm

end Simulation
