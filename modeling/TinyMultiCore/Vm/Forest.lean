import TinyMultiCore.Vm.Walk

/-!
# Forests of page tables

`Forest K h roots`: in the heap `h` every table under the roots is a frame in use,
no two of them are the same, and the tables have three levels, with blocks in the
last one only. Allocating a frame, linking a table in and writing a block entry
keep that, and say what becomes of every translation.
-/

namespace TinyMultiCore

open ByteMemory RadixTree

variable {K : KernelImage} {h h' : Heap} {roots : List U64} {r t f : U64}
  {p : List TableIndex} {i : TableIndex}

/-- The page tables under some roots, as `map_page` builds them: frames in use, in three levels,
with blocks in the last one only, and each of them at the end of one path from one root. So an entry
that is written is on one path, and the others lead where they did. -/
structure Forest (K : KernelImage) (h : Heap) (roots : List U64) : Prop where
  unshared : Unshared (tables h.mem) roots
  frames : ∀ r ∈ roots, ∀ p t, reach (tables h.mem) r p = some t → t ∈ h.inUse ∧ IsFrame K t
  nodes : ∀ r ∈ roots, ∀ p t i c, reach (tables h.mem) r p = some t →
    tables h.mem t i = .node c → p.length < 2
  leaves : ∀ r ∈ roots, ∀ p t i b, reach (tables h.mem) r p = some t →
    tables h.mem t i = .leaf b → p.length = 2

/-- No translation differs. -/
def SameWalks (roots : List U64) (m m' : Memory) : Prop :=
  ∀ r ∈ roots, ∀ p i, lookup (tables m') r p i = lookup (tables m) r p i

theorem SameWalks.trans {m₁ m₂ m₃ : Memory} (h₁ : SameWalks roots m₁ m₂)
    (h₂ : SameWalks roots m₂ m₃) : SameWalks roots m₁ m₃ :=
  fun r hr p i => (h₂ r hr p i).trans (h₁ r hr p i)

/-- What an allocating walk from the root `r` does to the heap: it takes frames, all
of them for new tables under `r`, and changes no other frame in use. -/
structure Grows (K : KernelImage) (r : U64) (h h' : Heap) : Prop where
  used : ∀ f ∈ h.inUse, f ∈ h'.inUse
  nodup : h.inUse.Nodup → h'.inUse.Nodup
  linked : ∀ f ∈ h'.inUse, f ∈ h.inUse ∨ ∃ p, reach (tables h'.mem) r p = some f
  kept : ∀ p t, reach (tables h.mem) r p = some t → reach (tables h'.mem) r p = some t
  reached : ∀ p t, reach (tables h'.mem) r p = some t →
    reach (tables h.mem) r p = some t ∨ t ∉ h.inUse
  leaves : ∀ p t i b, reach (tables h'.mem) r p = some t →
    tables h'.mem t i = .leaf b →
    reach (tables h.mem) r p = some t ∧
      read64 h'.mem (entryAddr t i) = read64 h.mem (entryAddr t i)
  outside : ∀ g ∈ h.inUse, IsFrame K g →
    (∀ p, reach (tables h.mem) r p ≠ some g) →
    ∀ x, (x - g).toNat < 2 ^ 21 → h'.mem x = h.mem x

namespace Grows

/-- Only a call of `kalloc` that failed. -/
theorem of_same (hmem : h'.mem = h.mem) (huse : h'.inUse = h.inUse) : Grows K r h h' := by
  obtain ⟨m, l, n⟩ := h
  obtain ⟨m', l', n'⟩ := h'
  obtain rfl : m' = m := hmem
  obtain rfl : l' = l := huse
  exact ⟨fun f hf => hf, id, fun f hf => Or.inl hf, fun p t hp => hp, fun p t hp => Or.inl hp,
    fun p t i b hp _ => ⟨hp, rfl⟩, fun g _ _ _ x _ => rfl⟩

theorem trans {h₁ h₂ h₃ : Heap} (h₁₂ : Grows K r h₁ h₂) (h₂₃ : Grows K r h₂ h₃) :
    Grows K r h₁ h₃ where
  used f hf := h₂₃.used f (h₁₂.used f hf)
  nodup hn := h₂₃.nodup (h₁₂.nodup hn)
  linked f hf := by
    rcases h₂₃.linked f hf with hf | hf
    · exact (h₁₂.linked f hf).imp id fun ⟨p, hp⟩ => ⟨p, h₂₃.kept p f hp⟩
    · exact Or.inr hf
  kept p t hp := h₂₃.kept p t (h₁₂.kept p t hp)
  reached p t hp := by
    rcases h₂₃.reached p t hp with hp | ht
    · exact h₁₂.reached p t hp
    · exact Or.inr fun hin => ht (h₁₂.used t hin)
  leaves p t i b hp hb := by
    obtain ⟨hp₂, heq₂⟩ := h₂₃.leaves p t i b hp hb
    have hb₂ : tables h₂.mem t i = .leaf b := by
      rw [← hb]
      exact (congrArg slotOf heq₂).symm
    obtain ⟨hp₁, heq₁⟩ := h₁₂.leaves p t i b hp₂ hb₂
    exact ⟨hp₁, heq₂.trans heq₁⟩
  outside g hg hf hnot x hx := by
    have hnot₂ : ∀ p, reach (tables h₂.mem) r p ≠ some g := by
      intro p hp
      rcases h₁₂.reached p g hp with hp | hout
      · exact hnot p hp
      · exact hout hg
    rw [h₂₃.outside g (h₁₂.used g hg) hf hnot₂ x hx, h₁₂.outside g hg hf hnot x hx]

end Grows

namespace Forest

/-- The slots of a forest's tables decide everything about it. -/
theorem transfer (hF : Forest K h roots)
    (huse : ∀ r ∈ roots, ∀ p t, reach (tables h.mem) r p = some t → t ∈ h'.inUse)
    (hsame : ∀ r ∈ roots, ∀ p t, reach (tables h.mem) r p = some t →
      ∀ i, tables h'.mem t i = tables h.mem t i) :
    Forest K h' roots ∧ SameWalks roots h.mem h'.mem ∧
      ∀ r ∈ roots, ∀ p, reach (tables h'.mem) r p = reach (tables h.mem) r p := by
  have hreach : ∀ r ∈ roots, ∀ p, reach (tables h'.mem) r p = reach (tables h.mem) r p :=
    fun r hr p => reach_congr (hsame r hr) p
  refine ⟨⟨?_, ?_, ?_, ?_⟩, fun r hr p i => lookup_congr (hsame r hr) p i, hreach⟩
  · intro r hr r' hr' p p' a hp hp'
    rw [hreach r hr] at hp
    rw [hreach r' hr'] at hp'
    exact hF.unshared r hr r' hr' p p' a hp hp'
  · intro r hr p t hp
    rw [hreach r hr] at hp
    exact ⟨huse r hr p t hp, (hF.frames r hr p t hp).2⟩
  · intro r hr p t i c hp hc
    rw [hreach r hr] at hp
    rw [hsame r hr p t hp] at hc
    exact hF.nodes r hr p t i c hp hc
  · intro r hr p t i b hp hb
    rw [hreach r hr] at hp
    rw [hsame r hr p t hp] at hb
    exact hF.leaves r hr p t i b hp hb

/-! ## Allocation -/

theorem zeroPage_zeroPage (m : Memory) (f : U64) : zeroPage (zeroPage m f) f = zeroPage m f := by
  funext x
  simp only [zeroPage, blit]
  split <;> rfl

@[simp] theorem memsetPage_withFrame (h : Heap) (f : U64) :
    (h.withFrame f).memsetPage f = h.withFrame f := by
  simp [Heap.memsetPage, Heap.withFrame, zeroPage_zeroPage]

/-- `kalloc` has returned `f`: an empty table under none of the roots. -/
theorem withFrame (hF : Forest K h roots) (hf : IsFrame K f) (hfree : f ∉ h.inUse) :
    Forest K (h.withFrame f) roots ∧ SameWalks roots h.mem (h.withFrame f).mem ∧
      (∀ r ∈ roots, ∀ p, reach (tables (h.withFrame f).mem) r p = reach (tables h.mem) r p) ∧
      (∀ r ∈ roots, ∀ p, reach (tables (h.withFrame f).mem) r p ≠ some f) ∧
      ∀ i, tables (h.withFrame f).mem f i = .empty := by
  have hzero : ∀ t, IsFrame K t → ∀ i, tables (h.withFrame f).mem t i =
    if t = f then .empty else tables h.mem t i := fun t ht i => tables_zeroPage hf ht i
  have hne : ∀ r ∈ roots, ∀ p t, reach (tables h.mem) r p = some t → t ≠ f := by
    rintro r hr p t hp rfl
    exact hfree (hF.frames r hr p t hp).1
  have huse : ∀ r ∈ roots, ∀ p t, reach (tables h.mem) r p = some t → t ∈ (h.withFrame f).inUse :=
    fun r hr p t hp => List.mem_cons_of_mem f (hF.frames r hr p t hp).1
  obtain ⟨hF', hwalks, hreach⟩ := hF.transfer huse fun r hr p t hp i => by
    rw [hzero t (hF.frames r hr p t hp).2, if_neg (hne r hr p t hp)]
  refine ⟨hF', hwalks, hreach, fun r hr p hp => ?_, fun i => by rw [hzero f hf, if_pos rfl]⟩
  rw [hreach r hr] at hp
  exact hne r hr p f hp rfl

/-! ## Writing an entry -/

/-- Writing an entry of a table edits its slot. -/
theorem tables_writeEntry {e : U64} (hf : IsFrame K f) (ht : IsFrame K t) (j : TableIndex) :
    tables (writeEntry h f i e).mem t j = (tables h.mem).set f i (slotOf e) t j :=
  tables_write hf ht i j e

/-- **Linking a table in.** The new table is zeroed and no path has led to it. A table that was
reached before would be reached twice now, and one with entries would bring more than itself. -/
theorem link (hF : Forest K h roots) (hr : r ∈ roots) (hp : reach (tables h.mem) r p = some t)
    (hlen : p.length < 2) (hold : tables h.mem t i = .empty) (hf : IsFrame K f)
    (hfuse : f ∈ h.inUse) (hfresh : ∀ r ∈ roots, ∀ p, reach (tables h.mem) r p ≠ some f)
    (hempty : ∀ j, tables h.mem f j = .empty) {e : U64} (he : slotOf e = .node f) :
    Forest K (writeEntry h t i e) roots ∧ SameWalks roots h.mem (writeEntry h t i e).mem ∧
      ∀ r' ∈ roots, ∀ q, reach (tables (writeEntry h t i e).mem) r' q =
        if r' = r ∧ q = p ++ [i] then some f else reach (tables h.mem) r' q := by
  have ht := (hF.frames r hr p t hp).2
  have hreach : ∀ r' ∈ roots, ∀ q, reach ((tables h.mem).set t i (.node f)) r' q =
      if r' = r ∧ q = p ++ [i] then some f else reach (tables h.mem) r' q :=
    fun r' hr' q => reach_setNode hF.unshared hr hp hold hfresh hempty hr' q
  -- the tables reached are the old ones and the new one: all of them frames
  have hframe : ∀ r' ∈ roots, ∀ q a, reach ((tables h.mem).set t i (.node f)) r' q = some a →
      a ∈ h.inUse ∧ IsFrame K a := by
    intro r' hr' q a hq
    rw [hreach r' hr'] at hq
    split at hq
    · cases hq
      exact ⟨hfuse, hf⟩
    · exact hF.frames r' hr' q a hq
  have hagree : ∀ r' ∈ roots, ∀ q a, reach ((tables h.mem).set t i (.node f)) r' q = some a →
      ∀ j, tables (writeEntry h t i e).mem a j = (tables h.mem).set t i (.node f) a j := by
    intro r' hr' q a hq j
    rw [tables_writeEntry ht (hframe r' hr' q a hq).2, he]
  have hreach' : ∀ r' ∈ roots, ∀ q, reach (tables (writeEntry h t i e).mem) r' q =
      reach ((tables h.mem).set t i (.node f)) r' q := fun r' hr' q => reach_congr (hagree r' hr') q
  refine ⟨⟨?_, ?_, ?_, ?_⟩, fun r' hr' q j => ?_, fun r' hr' q => ?_⟩
  · intro r₁ h₁ r₂ h₂ q₁ q₂ a hq₁ hq₂
    rw [hreach' r₁ h₁] at hq₁
    rw [hreach' r₂ h₂] at hq₂
    exact hF.unshared.setNode hr hp hold hfresh hempty r₁ h₁ r₂ h₂ q₁ q₂ a hq₁ hq₂
  · intro r' hr' q a hq
    rw [hreach' r' hr'] at hq
    exact hframe r' hr' q a hq
  · intro r' hr' q a j c hq hc
    rw [hreach' r' hr'] at hq
    rw [hagree r' hr' q a hq] at hc
    rw [hreach r' hr'] at hq
    split at hq
    · -- the new table has no children
      cases hq
      have hft : f ≠ t := fun hft => hfresh r hr p (hft ▸ hp)
      simp [Store.set, hft, hempty j] at hc
    · by_cases haj : a = t ∧ j = i
      · obtain ⟨rfl, rfl⟩ := haj
        rw [(hF.unshared r' hr' r hr q p a hq hp).2]
        exact hlen
      · rw [Store.set, if_neg haj] at hc
        exact hF.nodes r' hr' q a j c hq hc
  · intro r' hr' q a j b hq hb
    rw [hreach' r' hr'] at hq
    rw [hagree r' hr' q a hq] at hb
    rw [hreach r' hr'] at hq
    have haj : ¬ (a = t ∧ j = i) := fun haj => by simp [Store.set, haj] at hb
    rw [Store.set, if_neg haj] at hb
    split at hq
    · cases hq
      rw [hempty j] at hb
      cases hb
    · exact hF.leaves r' hr' q a j b hq hb
  · rw [lookup_congr (hagree r' hr')]
    exact lookup_setNode hF.unshared hr hp hold hfresh hempty hr' q j
  · rw [hreach' r' hr', hreach r' hr']

/-- **Writing or clearing a block entry** of a last-level table. No table is behind the entry
before or after, so the paths stay, and since every table is at the end of one path only, no other
lookup sees the write. -/
theorem writeLeaf (hF : Forest K h roots) (hr : r ∈ roots)
    (hp : reach (tables h.mem) r p = some t) (hlen : p.length = 2) {e : U64}
    (hnew : (slotOf e).child = none) :
    Forest K (writeEntry h t i e) roots ∧
      (∀ r' ∈ roots, ∀ q j, lookup (tables (writeEntry h t i e).mem) r' q j =
        if r' = r ∧ q = p ∧ j = i then (slotOf e).value else lookup (tables h.mem) r' q j) ∧
      ∀ r' ∈ roots, ∀ q, reach (tables (writeEntry h t i e).mem) r' q =
        reach (tables h.mem) r' q := by
  have ht := (hF.frames r hr p t hp).2
  have hold : (tables h.mem t i).child = none := by
    cases hslot : tables h.mem t i with
    | node c =>
      have := hF.nodes r hr p t i c hp hslot
      omega
    | _ => rfl
  have hreach : ∀ r' q, reach ((tables h.mem).set t i (slotOf e)) r' q =
    reach (tables h.mem) r' q := fun r' q => reach_set hold hnew q r'
  have hagree : ∀ r' ∈ roots, ∀ q a, reach ((tables h.mem).set t i (slotOf e)) r' q = some a →
      ∀ j, tables (writeEntry h t i e).mem a j = (tables h.mem).set t i (slotOf e) a j := by
    intro r' hr' q a hq j
    rw [hreach] at hq
    rw [tables_writeEntry ht (hF.frames r' hr' q a hq).2]
  have hreach' : ∀ r' ∈ roots, ∀ q, reach (tables (writeEntry h t i e).mem) r' q =
      reach (tables h.mem) r' q := fun r' hr' q => by
    rw [reach_congr (hagree r' hr'), hreach]
  refine ⟨⟨?_, ?_, ?_, ?_⟩, fun r' hr' q j => ?_, hreach'⟩
  · intro r₁ h₁ r₂ h₂ q₁ q₂ a hq₁ hq₂
    rw [hreach' r₁ h₁] at hq₁
    rw [hreach' r₂ h₂] at hq₂
    exact hF.unshared r₁ h₁ r₂ h₂ q₁ q₂ a hq₁ hq₂
  · intro r' hr' q a hq
    rw [hreach' r' hr'] at hq
    exact hF.frames r' hr' q a hq
  · intro r' hr' q a j c hq hc
    rw [hreach' r' hr'] at hq
    rw [hagree r' hr' q a (by rw [hreach]; exact hq)] at hc
    by_cases haj : a = t ∧ j = i
    · rw [Store.set, if_pos haj] at hc
      rw [hc] at hnew
      cases hnew
    · rw [Store.set, if_neg haj] at hc
      exact hF.nodes r' hr' q a j c hq hc
  · intro r' hr' q a j b hq hb
    rw [hreach' r' hr'] at hq
    rw [hagree r' hr' q a (by rw [hreach]; exact hq)] at hb
    by_cases haj : a = t ∧ j = i
    · obtain ⟨rfl, rfl⟩ := haj
      rw [(hF.unshared r' hr' r hr q p a hq hp).2]
      exact hlen
    · rw [Store.set, if_neg haj] at hb
      exact hF.leaves r' hr' q a j b hq hb
  · rw [lookup_congr (hagree r' hr')]
    exact lookup_setLeaf hF.unshared hr hp hold hnew hr' q j

/-- A new table linked in is how a heap grows. -/
theorem grows_link (hF : Forest K h roots) (hr : r ∈ roots)
    (hp : reach (tables h.mem) r p = some t) (hf : IsFrame K f) (hfree : f ∉ h.inUse) {e : U64}
    (he : slotOf e = .node f)
    (hreach : ∀ q, reach (tables (writeEntry (h.withFrame f) t i e).mem) r q =
      if q = p ++ [i] then some f else reach (tables h.mem) r q)
    (hold : tables h.mem t i = .empty) : Grows K r h (writeEntry (h.withFrame f) t i e) := by
  obtain ⟨htuse, ht⟩ := hF.frames r hr p t hp
  have hft : f ≠ t := fun hft => hfree (hft ▸ htuse)
  have hentry : ∀ a, IsFrame K a → ∀ j,
      read64 (writeEntry (h.withFrame f) t i e).mem (entryAddr a j) =
        if a = t ∧ j = i then e else if a = f then 0 else read64 h.mem (entryAddr a j) := by
    intro a ha j
    rw [writeEntry, entry_write ht ha, Heap.withFrame, entry_zeroPage hf ha]
  have hnone : reach (tables h.mem) r (p ++ [i]) = none := by
    rw [reach_snoc, hp, Option.bind_some, hold]
    rfl
  refine ⟨fun a ha => List.mem_cons_of_mem f ha, fun hn => List.nodup_cons.mpr ⟨hfree, hn⟩,
    ?_, ?_, ?_, ?_, ?_⟩
  · intro a ha
    rcases List.mem_cons.mp ha with rfl | ha
    · exact Or.inr ⟨p ++ [i], by rw [hreach, if_pos rfl]⟩
    · exact Or.inl ha
  · intro q a hq
    rw [hreach, if_neg, hq]
    rintro rfl
    rw [hnone] at hq
    cases hq
  · intro q a hq
    rw [hreach] at hq
    split at hq
    · cases hq
      exact Or.inr hfree
    · exact Or.inl hq
  · intro q a j b hq hb
    rw [hreach] at hq
    have hslot : tables (writeEntry (h.withFrame f) t i e).mem a j =
      slotOf (read64 (writeEntry (h.withFrame f) t i e).mem (entryAddr a j)) := rfl
    rw [hslot] at hb
    split at hq
    · -- the new table is empty
      cases hq
      rw [hentry f hf, if_neg fun h => hft h.1, if_pos rfl, slotOf_zero] at hb
      cases hb
    · obtain ⟨hause, ha⟩ := hF.frames r hr q a hq
      have haf : a ≠ f := fun haf => hfree (haf ▸ hause)
      refine ⟨hq, ?_⟩
      rw [hentry a ha, if_neg haf] at hb ⊢
      by_cases haj : a = t ∧ j = i
      · rw [if_pos haj, he] at hb
        cases hb
      · rw [if_neg haj]
  · intro g hg hgf hnot x hx
    have hgt : g ≠ t := fun hgt => hnot p (hgt ▸ hp)
    have hgne : g ≠ f := fun h => hfree (h ▸ hg)
    show write64 (h.withFrame f).mem (entryAddr t i) e x = h.mem x
    rw [write_outside ht hgf hgt i e hx]
    exact if_neg (Nat.not_lt.mpr (hgf.outside hf hgne hx))

end Forest

end TinyMultiCore
