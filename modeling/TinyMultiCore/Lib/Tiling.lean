import Mathlib.Data.List.Pairwise
import Mathlib.Data.Set.Lattice
import Mathlib.Order.CompletePartialOrder

/-!
# Tilings

A list of pieces, each of which has an extent, tiles a set when the extents are pairwise
disjoint and the set is what they cover together. The edits of such a list:

* `Tiles.perm` — the order does not matter;
* `Tiles.cons` — a piece joins that is disjoint from the set;
* `Tiles.halve` — a piece is replaced by two that it consists of.
-/

namespace Tiling

variable {α β γ : Type*} {extent : β → Set α} {bs cs : List β} {b c d : β} {S : Set α}

/-- The pieces are pairwise disjoint and cover `S` together. -/
structure Tiles (extent : β → Set α) (bs : List β) (S : Set α) : Prop where
  apart : bs.Pairwise fun b c => Disjoint (extent b) (extent c)
  cover : ∀ x, x ∈ S ↔ ∃ b ∈ bs, x ∈ extent b

/-- Disjoint pieces tile what they cover. -/
theorem tiles_self (h : bs.Pairwise fun b c => Disjoint (extent b) (extent c)) :
    Tiles extent bs {x | ∃ b ∈ bs, x ∈ extent b} :=
  ⟨h, fun _ => Iff.rfl⟩

namespace Tiles

theorem nil : Tiles extent [] ∅ :=
  ⟨List.Pairwise.nil, by simp⟩

theorem perm (h : Tiles extent bs S) (hp : bs.Perm cs) : Tiles extent cs S := by
  refine ⟨(hp.pairwise_iff fun h => h.symm).mp h.apart, fun x => ?_⟩
  rw [h.cover]
  exact exists_congr fun b => and_congr_left fun _ => hp.mem_iff

/-- A piece joins. -/
theorem cons (h : Tiles extent bs S) (hb : Disjoint (extent b) S) :
    Tiles extent (b :: bs) (extent b ∪ S) := by
  refine ⟨List.pairwise_cons.mpr ⟨fun c hc => ?_, h.apart⟩, fun x => ?_⟩
  · exact hb.mono_right fun x hx => (h.cover x).mpr ⟨c, hc, hx⟩
  · simp [h.cover]

/-- A piece is replaced by two that it consists of. -/
theorem halve (h : Tiles extent (b :: bs) S) (hunion : extent b = extent c ∪ extent d)
    (hcd : Disjoint (extent c) (extent d)) : Tiles extent (c :: d :: bs) S := by
  obtain ⟨hb, hbs⟩ := List.pairwise_cons.mp h.apart
  refine ⟨List.pairwise_cons.mpr ⟨fun e he => ?_, List.pairwise_cons.mpr ⟨fun e he => ?_, hbs⟩⟩,
    fun x => ?_⟩
  · rcases List.mem_cons.mp he with rfl | he
    · exact hcd
    · exact (hb e he).mono_left fun x hx => hunion ▸ Or.inl hx
  · exact (hb e he).mono_left fun x hx => hunion ▸ Or.inr hx
  · simp [h.cover, hunion, or_assoc]

/-- A name of the pieces that decides a common element is given once. -/
theorem map_nodup (h : Tiles extent bs S) (name : β → γ)
    (hname : ∀ b c, name b = name c → ¬Disjoint (extent b) (extent c)) :
    (bs.map name).Nodup :=
  List.pairwise_map.mpr (h.apart.imp fun hdis he => hname _ _ he hdis)

end Tiles

end Tiling
