import TinyMultiCore.Vm.FreeTable

/-!
# Maps that own what they reach

`PrivateMap K h map`: the tables under the root `map`, and the pages mapped there,
are frames in use, each of them reached in one way. `OwnedBy` are these frames.

* `PrivateMap.transfer` — nothing done outside the tables matters;
* `mapPage_pageMapped` — `map_page` with a page of nobody's makes it the map's.
-/

namespace TinyMultiCore

open ByteMemory RadixTree

variable {K : KernelImage} {src : FrameSource K} {h h' : Heap} {map t f v attr : U64}
  {p : List TableIndex} {i : TableIndex}

-- ---------------------------------------------------------------------------
-- Maps that own what they reach
-- ---------------------------------------------------------------------------

/-- A map alone: its tables, and the pages it maps, are frames in use, each of them reached in one
way. That is what `free_vm` needs to free each of them once, and to find a table still in use when
it reads it. -/
structure PrivateMap (K : KernelImage) (h : Heap) (map : U64) : Prop where
  forest : Forest K h [map]
  /-- `PDE_ADDR` and `PTE_ADDR` read the same address off a block entry. -/
  aligned : ∀ p t i b, reach (tables h.mem) map p = some t → tables h.mem t i = .leaf b →
    pdeAddr (read64 h.mem (entryAddr t i)) = b.1
  pages : ∀ p i b, lookup (tables h.mem) map p i = some b → pageOf b ∈ h.inUse ∧ IsFrame K (pageOf b)
  once : ∀ p i b p' i' b', lookup (tables h.mem) map p i = some b →
    lookup (tables h.mem) map p' i' = some b' → pageOf b = pageOf b' → p = p' ∧ i = i'
  apart : ∀ p i b q, lookup (tables h.mem) map p i = some b →
    reach (tables h.mem) map q ≠ some (pageOf b)

/-- Some address is mapped to the page `f`. -/
def Maps (m : Memory) (map f : U64) : Prop :=
  ∃ p i b, lookup (tables m) map p i = some b ∧ pageOf b = f

/-- The frames of a map: its root and tables, and the pages it maps. -/
def OwnedBy (m : Memory) (map f : U64) : Prop :=
  (∃ p, reach (tables m) map p = some f) ∨ Maps m map f

theorem lookup_of_leaf {m : Memory} {b : Mapping} (hp : reach (tables m) map p = some t)
    (hb : tables m t i = .leaf b) : lookup (tables m) map p i = some b := by
  rw [lookup, hp, Option.bind_some, hb]
  rfl

theorem leaf_of_lookup {m : Memory} {b : Mapping} (hb : lookup (tables m) map p i = some b) :
    ∃ t, reach (tables m) map p = some t ∧ tables m t i = .leaf b := by
  obtain ⟨t, hp, hv⟩ := Option.bind_eq_some_iff.mp hb
  refine ⟨t, hp, ?_⟩
  match hslot : tables m t i with
  | .leaf b' =>
    rw [hslot] at hv
    exact congrArg _ (Option.some.inj hv)
  | .empty => simp [hslot] at hv
  | .node c => simp [hslot] at hv

/-- What a slot holds is a table or a page. -/
theorem holds_iff {m : Memory} : Holds pageOf (tables m) map p i f ↔
    reach (tables m) map (p ++ [i]) = some f ∨
      ∃ b, lookup (tables m) map p i = some b ∧ pageOf b = f := by
  constructor
  · intro ⟨t, hp, hf⟩
    match hslot : tables m t i with
    | .empty =>
      rw [hslot] at hf
      cases hf
    | .node c =>
      rw [hslot] at hf
      cases hf
      exact Or.inl (reach_snoc_eq_some.mpr ⟨t, hp, hslot⟩)
    | .leaf b =>
      rw [hslot] at hf
      exact Or.inr ⟨b, lookup_of_leaf hp hslot, Option.some.inj hf⟩
  · intro hf
    rcases hf with hf | ⟨b, hb, rfl⟩
    · exact holds_of_reach hf
    · obtain ⟨t, hp, hslot⟩ := leaf_of_lookup hb
      exact ⟨t, hp, by rw [hslot]; rfl⟩

theorem ownedBy_iff {m : Memory} :
    OwnedBy m map f ↔ f = map ∨ ∃ p i, Holds pageOf (tables m) map p i f := by
  constructor
  · intro h
    rcases h with ⟨p, hp⟩ | ⟨p, i, b, hb⟩
    · rcases p.eq_nil_or_concat with rfl | ⟨q, i, rfl⟩
      · exact Or.inl (Option.some.inj hp).symm
      · exact Or.inr ⟨q, i, holds_of_reach (by rwa [List.concat_eq_append] at hp)⟩
    · exact Or.inr ⟨p, i, holds_iff.mpr (Or.inr ⟨b, hb⟩)⟩
  · intro h
    rcases h with rfl | ⟨p, i, hf⟩
    · exact Or.inl ⟨[], rfl⟩
    · rcases holds_iff.mp hf with hf | ⟨b, hb⟩
      · exact Or.inl ⟨_, hf⟩
      · exact Or.inr ⟨p, i, b, hb⟩

namespace PrivateMap

theorem frame (hM : PrivateMap K h map) (hf : OwnedBy h.mem map f) : f ∈ h.inUse ∧ IsFrame K f := by
  rcases hf with ⟨p, hp⟩ | ⟨p, i, b, hb, rfl⟩
  · exact hM.forest.frames map List.mem_cons_self p f hp
  · exact hM.pages p i b hb

theorem holdsOnce (hM : PrivateMap K h map) : HoldsOnce pageOf (tables h.mem) map := by
  intro p i p' i' f hf hf'
  rcases holds_iff.mp hf with hf | ⟨b, hb, hbf⟩ <;> rcases holds_iff.mp hf' with hf' | ⟨b', hb', hbf'⟩
  · have heq := (hM.forest.unshared map List.mem_cons_self map List.mem_cons_self _ _ f hf hf').2
    obtain ⟨rfl, hi⟩ := List.append_inj' heq rfl
    exact ⟨rfl, List.singleton_inj.mp hi⟩
  · exact absurd hf (hbf' ▸ hM.apart _ _ b' _ hb')
  · exact absurd hf' (hbf ▸ hM.apart _ _ b _ hb)
  · exact hM.once _ _ b _ _ b' hb hb' (hbf.trans hbf'.symm)

theorem root_not_held (hM : PrivateMap K h map) : ¬ Holds pageOf (tables h.mem) map p i map := by
  intro hf
  rcases holds_iff.mp hf with hf | ⟨b, hb, hbf⟩
  · have heq := (hM.forest.unshared map List.mem_cons_self map List.mem_cons_self _ [] map hf rfl).2
    exact List.append_ne_nil_of_right_ne_nil _ (List.cons_ne_nil _ _) heq
  · exact hM.apart p i b [] hb (by rw [hbf]; rfl)

theorem levels (hM : PrivateMap K h map) {d : Nat} (hp : reach (tables h.mem) map p = some t)
    (hd : p.length + d = 2) : Levels h.mem d t := by
  induction d generalizing p t with
  | zero =>
    intro i
    cases hslot : tables h.mem t i with
    | empty => exact Or.inl rfl
    | node c =>
      have := hM.forest.nodes map List.mem_cons_self p t i c hp hslot
      omega
    | leaf b => exact Or.inr ⟨b, rfl, hM.aligned p t i b hp hslot⟩
  | succ d ih =>
    intro i
    cases hslot : tables h.mem t i with
    | empty => exact Or.inl rfl
    | node c =>
      refine Or.inr ⟨c, rfl, ih (reach_snoc_eq_some.mpr ⟨t, hp, hslot⟩) ?_⟩
      rw [List.length_append, List.length_singleton]
      omega
    | leaf b =>
      have := hM.forest.leaves map List.mem_cons_self p t i b hp hslot
      omega

/-- Slots lie in tables of the three levels. -/
theorem holds_length (hM : PrivateMap K h map) (hf : Holds pageOf (tables h.mem) map p i f) :
    p.length ≤ 2 := by
  obtain ⟨t, hp, hf⟩ := hf
  match hslot : tables h.mem t i with
  | .empty =>
    rw [hslot] at hf
    cases hf
  | .node c => exact (hM.forest.nodes map List.mem_cons_self p t i c hp hslot).le
  | .leaf b => exact (hM.forest.leaves map List.mem_cons_self p t i b hp hslot).le

variable (h') in
/-- Nothing about a map changes when its tables do not and its frames stay in use. -/
theorem transfer (hM : PrivateMap K h map) (huse : ∀ f, OwnedBy h.mem map f → f ∈ h'.inUse)
    (hsame : ∀ p t, reach (tables h.mem) map p = some t →
      ∀ x, (x - t).toNat < 2 ^ 21 → h'.mem x = h.mem x) :
    PrivateMap K h' map ∧ (∀ f, OwnedBy h'.mem map f ↔ OwnedBy h.mem map f) ∧
      SameWalks [map] h.mem h'.mem := by
  obtain ⟨hF, hwalks, hreach⟩ := hM.forest.transfer
    (fun r hr p t hp => huse t (Or.inl ⟨p, by rwa [List.mem_singleton.mp hr] at hp⟩))
    (fun r hr p t hp i => by
      rw [List.mem_singleton.mp hr] at hp
      exact tables_congr (hsame p t hp) i)
  have hreach := hreach map List.mem_cons_self
  have hlookup := hwalks map List.mem_cons_self
  refine ⟨⟨hF, ?_, ?_, ?_, ?_⟩, fun f => ?_, hwalks⟩
  · intro p t i b hp hb
    rw [hreach] at hp
    rw [tables_congr (hsame p t hp)] at hb
    rw [entry_congr (hsame p t hp)]
    exact hM.aligned p t i b hp hb
  · intro p i b hb
    rw [hlookup] at hb
    exact ⟨huse _ (Or.inr ⟨p, i, b, hb, rfl⟩), (hM.pages p i b hb).2⟩
  · intro p i b p' i' b' hb hb'
    rw [hlookup] at hb hb'
    exact hM.once p i b p' i' b' hb hb'
  · intro p i b q hb
    rw [hlookup] at hb
    rw [hreach]
    exact hM.apart p i b q hb
  · simp only [OwnedBy, Maps, hreach, hlookup]

/-- Writing a block entry for a page of nobody's, or clearing one. -/
theorem writeEntry (hM : PrivateMap K h map) (hp : reach (tables h.mem) map p = some t)
    (hlen : p.length = 2) {e : U64} (hnew : (slotOf e).child = none)
    (hleaf : ∀ b, slotOf e = .leaf b → pdeAddr e = b.1 ∧ pageOf b ∈ h.inUse ∧
      IsFrame K (pageOf b) ∧ ¬ OwnedBy h.mem map (pageOf b)) :
    PrivateMap K (writeEntry h t i e) map ∧
      (∀ q, reach (tables (TinyMultiCore.writeEntry h t i e).mem) map q =
        reach (tables h.mem) map q) ∧
      ∀ q j, lookup (tables (TinyMultiCore.writeEntry h t i e).mem) map q j =
        if q = p ∧ j = i then (slotOf e).value else lookup (tables h.mem) map q j := by
  obtain ⟨hF, hlookup, hreach⟩ := hM.forest.writeLeaf (i := i) List.mem_cons_self hp hlen hnew
  have hreach := hreach map List.mem_cons_self
  have hlookup : ∀ q j, lookup (tables (TinyMultiCore.writeEntry h t i e).mem) map q j =
      if q = p ∧ j = i then (slotOf e).value else lookup (tables h.mem) map q j := by
    intro q j
    rw [hlookup map List.mem_cons_self]
    simp
  have hvalue : ∀ b, (slotOf e).value = some b → slotOf e = .leaf b := by
    intro b hb
    match hslot : slotOf e with
    | .leaf b' =>
      rw [hslot] at hb
      exact congrArg _ (Option.some.inj hb)
    | .empty => simp [hslot] at hb
    | .node c => simp [hslot] at hb
  have ht := (hM.forest.frames map List.mem_cons_self p t hp).2
  refine ⟨⟨hF, ?_, ?_, ?_, ?_⟩, hreach, hlookup⟩
  · intro q a j b hq hb
    rw [hreach] at hq
    have ha := (hM.forest.frames map List.mem_cons_self q a hq).2
    have hentry : read64 (TinyMultiCore.writeEntry h t i e).mem (entryAddr a j) =
        if a = t ∧ j = i then e else read64 h.mem (entryAddr a j) := entry_write ht ha i j e
    have hb : slotOf (read64 (TinyMultiCore.writeEntry h t i e).mem (entryAddr a j)) = .leaf b := hb
    rw [hentry] at hb ⊢
    by_cases haj : a = t ∧ j = i
    · rw [if_pos haj] at hb ⊢
      exact (hleaf b hb).1
    · rw [if_neg haj] at hb ⊢
      exact hM.aligned q a j b hq hb
  · intro q j b hb
    rw [hlookup] at hb
    split at hb
    · exact ⟨(hleaf b (hvalue b hb)).2.1, (hleaf b (hvalue b hb)).2.2.1⟩
    · exact hM.pages q j b hb
  · intro q j b q' j' b' hb hb' hbb
    rw [hlookup] at hb hb'
    split at hb <;> split at hb'
    · rename_i h₁ h₂
      exact ⟨h₁.1.trans h₂.1.symm, h₁.2.trans h₂.2.symm⟩
    · exact absurd (Or.inr ⟨q', j', b', hb', hbb.symm⟩) (hleaf b (hvalue b hb)).2.2.2
    · exact absurd (Or.inr ⟨q, j, b, hb, hbb⟩) (hleaf b' (hvalue b' hb')).2.2.2
    · exact hM.once q j b q' j' b' hb hb' hbb
  · intro q j b q' hb hq'
    rw [hlookup] at hb
    rw [hreach] at hq'
    split at hb
    · exact (hleaf b (hvalue b hb)).2.2.2 (Or.inl ⟨q', hq'⟩)
    · exact hM.apart q j b q' hb hq'

/-- New tables leave the map private. -/
theorem grows (hM : PrivateMap K h map) (hF : Forest K h' [map])
    (hwalks : SameWalks [map] h.mem h'.mem) (hgrows : Grows K map h h') : PrivateMap K h' map := by
  have hlookup := hwalks map List.mem_cons_self
  refine ⟨hF, ?_, ?_, ?_, ?_⟩
  · intro p t i b hp hb
    obtain ⟨hp', heq⟩ := hgrows.leaves p t i b hp hb
    rw [heq]
    exact hM.aligned p t i b hp' ((congrArg slotOf heq).symm.trans hb)
  · intro p i b hb
    rw [hlookup] at hb
    exact ⟨hgrows.used _ (hM.pages p i b hb).1, (hM.pages p i b hb).2⟩
  · intro p i b p' i' b' hb hb'
    rw [hlookup] at hb hb'
    exact hM.once p i b p' i' b' hb hb'
  · intro p i b q hb hq
    rw [hlookup] at hb
    -- a table that was there before, or one that was not in use
    rcases hgrows.reached q _ hq with hq | hout
    · exact hM.apart p i b q hb hq
    · exact hout (hM.pages p i b hb).1

end PrivateMap

/-- A root in use that has no entries. -/
structure EmptyRoot (K : KernelImage) (h : Heap) (map : U64) : Prop where
  used : map ∈ h.inUse
  frame : IsFrame K map
  empty : ∀ i, tables h.mem map i = .empty

/-- It owns itself and maps nothing. -/
theorem EmptyRoot.alone (hE : EmptyRoot K h map) :
    PrivateMap K h map ∧ (∀ f, ¬ Maps h.mem map f) ∧
      ∀ p t, reach (tables h.mem) map p = some t → t = map := by
  obtain ⟨huse, hf, hempty⟩ := hE
  have hself : ∀ q t, reach (tables h.mem) map q = some t → q = [] ∧ t = map := by
    intro q t hq
    cases q with
    | nil => exact ⟨rfl, (Option.some.inj hq).symm⟩
    | cons j q => simp [reach, hempty] at hq
  have hnone : ∀ p i b, lookup (tables h.mem) map p i ≠ some b := by
    intro p i b hb
    obtain ⟨t, hp, hslot⟩ := leaf_of_lookup hb
    obtain ⟨rfl, rfl⟩ := hself p t hp
    rw [hempty] at hslot
    cases hslot
  have hmaps : ∀ f, ¬ Maps h.mem map f := by
    rintro f ⟨p, i, b, hb, -⟩
    exact hnone p i b hb
  refine ⟨⟨⟨?_, ?_, ?_, ?_⟩, ?_, ?_, ?_, ?_⟩, hmaps, fun p t hp => (hself p t hp).2⟩
  · intro r hr r' hr' q q' a hq hq'
    obtain rfl := List.mem_singleton.mp hr
    obtain rfl := List.mem_singleton.mp hr'
    exact ⟨rfl, (hself q a hq).1.trans (hself q' a hq').1.symm⟩
  · intro r hr q t hq
    obtain rfl := List.mem_singleton.mp hr
    obtain ⟨-, rfl⟩ := hself q t hq
    exact ⟨huse, hf⟩
  · intro r hr q t i c hq hc
    obtain rfl := List.mem_singleton.mp hr
    obtain ⟨-, rfl⟩ := hself q t hq
    rw [hempty] at hc
    cases hc
  · intro r hr q t i b hq hb
    obtain rfl := List.mem_singleton.mp hr
    obtain ⟨-, rfl⟩ := hself q t hq
    rw [hempty] at hb
    cases hb
  · intro p t i b hp hb
    exact absurd (lookup_of_leaf hp hb) (hnone p i b)
  · exact fun p i b hb => absurd hb (hnone p i b)
  · exact fun p i b _ _ _ hb => absurd hb (hnone p i b)
  · exact fun p i b _ hb => absurd hb (hnone p i b)

-- ---------------------------------------------------------------------------
-- `map_page`
-- ---------------------------------------------------------------------------

/-- What `map_page` for the page `f` does to a map alone. -/
structure PageMapped (K : KernelImage) (map f : U64) (ok : Bool) (h h' : Heap) : Prop where
  alone : PrivateMap K h' map
  used : ∀ g ∈ h.inUse, g ∈ h'.inUse
  nodup : h.inUse.Nodup → h'.inUse.Nodup
  linked : ∀ g ∈ h'.inUse, g ∈ h.inUse ∨ ∃ p, reach (tables h'.mem) map p = some g
  kept : ∀ p t, reach (tables h.mem) map p = some t → reach (tables h'.mem) map p = some t
  reached : ∀ p t, reach (tables h'.mem) map p = some t →
    reach (tables h.mem) map p = some t ∨ t ∉ h.inUse
  maps : ∀ g, Maps h'.mem map g ↔ Maps h.mem map g ∨ (ok = true ∧ g = f)
  outside : ∀ g ∈ h.inUse, IsFrame K g → (∀ p, reach (tables h.mem) map p ≠ some g) →
    ∀ x, (x - g).toNat < 2 ^ 21 → h'.mem x = h.mem x

theorem maps_congr {m m' : Memory} (h : SameWalks [map] m m') : Maps m' map f ↔ Maps m map f := by
  simp only [Maps, h map List.mem_cons_self]

/-- **`map_page`** on a map alone, with a page of nobody's. The tables it adds are frames that were
free, so they are not the page, and neither comes to be held by the map a second time. -/
theorem mapPage_pageMapped (hM : PrivateMap K h map) (ha : ValidAttr attr) (huse : f ∈ h.inUse)
    (hf : IsFrame K f) (hnot : ¬ OwnedBy h.mem map f) {ok : Bool}
    (hok : mapPage src h map v (v2p f) attr = .ok (ok, h')) : PageMapped K map f ok h h' := by
  obtain ⟨-, h₁, hF₁, hwalks, hgrows, hres⟩ := mapPage_cases hM.forest List.mem_cons_self ha hok
  have hM₁ := hM.grows hF₁ hwalks hgrows
  rcases hres with ⟨rfl, rfl, -⟩ | ⟨rfl, c, hreach, hempty, rfl⟩
  · exact ⟨hM₁, hgrows.used, hgrows.nodup, hgrows.linked, hgrows.kept, hgrows.reached,
      fun g => by rw [maps_congr hwalks]; simp, hgrows.outside⟩
  have hslot : slotOf (v2p f ||| attr ||| blockEntry) = .leaf (v2p f, attr) :=
    slotOf_block hf.blockAddr ha
  have hpage : pageOf (v2p f, attr) = f := IsFrame.p2v_v2p f
  -- the page is not reached after the tables were added either
  have hnot₁ : ¬ OwnedBy h₁.mem map f := by
    intro hown
    rcases hown with ⟨p, hp⟩ | hmaps
    · rcases hgrows.reached p f hp with hp | hout
      · exact hnot (Or.inl ⟨p, hp⟩)
      · exact hout huse
    · exact hnot (Or.inr ((maps_congr hwalks).mp hmaps))
  obtain ⟨hM₂, hreach₂, hlookup₂⟩ := hM₁.writeEntry (i := pmdIndex (paDown v)) hreach rfl
    (by rw [hslot]; rfl) (e := v2p f ||| attr ||| blockEntry) (fun b hb => by
      rw [hslot] at hb
      cases hb
      rw [hpage]
      exact ⟨pdeAddr_block hf.blockAddr ha, hgrows.used f huse, hf, hnot₁⟩)
  have hnone : lookup (tables h₁.mem) map [pgdIndex (paDown v), pudIndex (paDown v)]
      (pmdIndex (paDown v)) = none := by
    rw [lookup, hreach, Option.bind_some, hempty]
    rfl
  refine ⟨hM₂, hgrows.used, hgrows.nodup, ?_, ?_, ?_, ?_, ?_⟩
  · intro g hg
    simp only [hreach₂]
    exact hgrows.linked g hg
  · intro p t hp
    rw [hreach₂]
    exact hgrows.kept p t hp
  · intro p t hp
    rw [hreach₂] at hp
    exact hgrows.reached p t hp
  · intro g
    rw [← maps_congr hwalks]
    constructor
    · rintro ⟨p, i, b, hb, hbg⟩
      rw [hlookup₂] at hb
      split at hb
      · rw [hslot] at hb
        cases hb
        exact Or.inr ⟨rfl, hbg.symm.trans hpage⟩
      · exact Or.inl ⟨p, i, b, hb, hbg⟩
    · intro hg
      rcases hg with ⟨p, i, b, hb, hbg⟩ | ⟨-, rfl⟩
      · refine ⟨p, i, b, ?_, hbg⟩
        rw [hlookup₂, if_neg, hb]
        rintro ⟨rfl, rfl⟩
        rw [hnone] at hb
        cases hb
      · exact ⟨_, _, _, by rw [hlookup₂, if_pos ⟨rfl, rfl⟩, hslot]; rfl, hpage⟩
  · intro g hg hgf hout x hx
    have hgc : g ≠ c := by
      rintro rfl
      rcases hgrows.reached _ g hreach with hp | hnin
      · exact hout _ hp
      · exact hnin hg
    have hc := (hF₁.frames map List.mem_cons_self _ c hreach).2
    rw [← hgrows.outside g hg hgf hout x hx]
    exact write_outside hc hgf hgc _ _ hx

end TinyMultiCore
