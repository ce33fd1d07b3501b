import Mathlib.Data.List.Nodup

/-!
# Ledgers

A list of resources in use, and who owns them: `Ledger owns l` says that everything on
the list has one owner, and that nothing else is owned.

* `Ledger.edit` — one owner gives back what it had, or takes what was free, or both;
* `Ledger.refine` — the books of the owners themselves, kept one by one.
-/

/-- Everything in `l` has exactly one owner, and nothing else has any. With `l` as what is
allocated, this is both that nobody uses what is free and that nothing is lost. -/
structure Ledger {ο α : Type*} (owns : ο → α → Prop) (l : List α) : Prop where
  nodup : l.Nodup
  used : ∀ o a, owns o a → a ∈ l
  owned : ∀ a ∈ l, ∃ o, owns o a
  unique : ∀ o o' a, owns o a → owns o' a → o = o'

namespace Ledger

variable {ο κ α : Type*} {owns owns' : ο → α → Prop} {l l' : List α} {a : α}

theorem mem_iff (h : Ledger owns l) : a ∈ l ↔ ∃ o, owns o a :=
  ⟨h.owned a, fun ⟨o, ho⟩ => h.used o a ho⟩

/-- What `o` does not own belongs to the others. -/
theorem other (h : Ledger owns l) {o o' : ο} (hne : o' ≠ o) (ho' : owns o' a) :
    a ∈ l ∧ ¬ owns o a :=
  ⟨h.used o' a ho', fun ho => hne (h.unique o' o a ho' ho)⟩

/-- **The holdings of one owner change**, within what was free and what it had. The others need not
be looked at: what they own is in the list, and what the owner takes is not. -/
theorem edit (h : Ledger owns l) (o : ο) (hother : ∀ o', o' ≠ o → ∀ a, owns' o' a ↔ owns o' a)
    (hnew : ∀ a, owns' o a → owns o a ∨ a ∉ l) (hnodup : l'.Nodup)
    (hmem : ∀ a, a ∈ l' ↔ owns' o a ∨ (a ∈ l ∧ ¬ owns o a)) : Ledger owns' l' := by
  -- nobody else owns what `o` has now
  have hown : ∀ o' a, o' ≠ o → owns' o a → ¬ owns' o' a := by
    intro o' a hne ho ho'
    obtain ⟨hin, hnot⟩ := h.other hne ((hother o' hne a).mp ho')
    exact (hnew a ho).elim hnot fun hout => hout hin
  refine ⟨hnodup, fun o' a ho' => ?_, fun a ha => ?_, fun o₁ o₂ a h₁ h₂ => ?_⟩
  · rw [hmem]
    by_cases he : o' = o
    · exact Or.inl (he ▸ ho')
    · exact Or.inr (h.other he ((hother o' he a).mp ho'))
  · rcases (hmem a).mp ha with ho | ⟨hin, hnot⟩
    · exact ⟨o, ho⟩
    · obtain ⟨o', ho'⟩ := h.owned a hin
      exact ⟨o', (hother o' (fun he => hnot (he ▸ ho')) a).mpr ho'⟩
  · by_cases he₁ : o₁ = o <;> by_cases he₂ : o₂ = o
    · rw [he₁, he₂]
    · exact absurd h₂ (hown o₂ a he₂ (he₁ ▸ h₁))
    · exact absurd h₁ (hown o₁ a he₁ (he₂ ▸ h₂))
    · exact h.unique o₁ o₂ a ((hother o₁ he₁ a).mp h₁) ((hother o₂ he₂ a).mp h₂)

/-- **Books within books**: every owner has parts, each of which owns something of what
it owns. Two parts of one owner have to be told apart by the caller of the rule; two parts of
different owners have nothing in common already. -/
theorem refine (h : Ledger owns l) {holds : κ → α → Prop} (owner : κ → ο)
    (hparts : ∀ o a, owns o a ↔ ∃ p, owner p = o ∧ holds p a)
    (hunique : ∀ p p' a, owner p = owner p' → holds p a → holds p' a → p = p') :
    Ledger holds l := by
  have howns : ∀ p a, holds p a → owns (owner p) a := fun p a hp =>
    (hparts _ a).mpr ⟨p, rfl, hp⟩
  refine ⟨h.nodup, fun p a hp => h.used _ a (howns p a hp), fun a ha => ?_, fun p p' a hp hp' => ?_⟩
  · obtain ⟨o, ho⟩ := h.owned a ha
    obtain ⟨p, -, hp⟩ := (hparts o a).mp ho
    exact ⟨p, hp⟩
  · exact hunique p p' a (h.unique _ _ a (howns p a hp) (howns p' a hp')) hp hp'

end Ledger
