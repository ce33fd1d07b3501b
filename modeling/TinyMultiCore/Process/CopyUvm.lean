import TinyMultiCore.Process.Fork

/-!
# When `copy_uvm` fails

`copy_uvm` takes a page for the copy before `map_page` takes the tables for it. When a
table is missing and there is no frame for it, `copy_uvm` returns `false` as it stands:

* `copyUvm_leaks` — the page stays in use, and no table leads to it, so that `free_vm`
  of the new map does not give it back;
* `copy_uvm_leaks_nothing_iff` — the only other ways to end are without the page and
  with success.

`setup_uvm` frees its page in this place.
-/

namespace TinyMultiCore

open ByteMemory RadixTree

variable {K : KernelImage} {src : FrameSource K} {h h' : Heap} {dstMap srcMap page t f : U64}
  {size : U32}

-- ---------------------------------------------------------------------------
-- The two maps
-- ---------------------------------------------------------------------------

/-- What `copy_uvm` is called with: two maps that share no tables, the user base mapped
in the one that is copied and not in the other. -/
structure CopyMaps (K : KernelImage) (h : Heap) (dstMap srcMap : U64) : Prop where
  dst : Forest K h [dstMap]
  src : Forest K h [srcMap]
  pages : ∀ map ∈ [dstMap, srcMap], ∀ f, Maps h.mem map f → f ∈ h.inUse ∧ IsFrame K f
  apart : ∀ p t, reach (tables h.mem) dstMap p = some t → ¬ OwnedBy h.mem srcMap t
  mapped : walk h.mem srcMap userBase ≠ none
  unmapped : walk h.mem dstMap userBase = none

/-- The tables and pages of `srcMap` are as they were. -/
def SourceKept (h : Heap) (srcMap : U64) (h' : Heap) : Prop :=
  ∀ f, OwnedBy h.mem srcMap f → f ∈ h'.inUse ∧ ∀ x, (x - f).toNat < 2 ^ 21 → h'.mem x = h.mem x

/-- What a failed `copy_uvm` should leave behind: every frame that it took, and that is
still in use, is a table of `dstMap` or a page mapped there. -/
def NothingLeaked (h : Heap) (dstMap : U64) (h' : Heap) : Prop :=
  ∀ f ∈ h'.inUse, f ∉ h.inUse → OwnedBy h'.mem dstMap f

/-- There is no frame for the page, or there is one for it and for every table that is
missing. -/
def CopyFits (src : FrameSource K) (h : Heap) (dstMap : U64) : Prop :=
  src.pick h.calls h.inUse = none ∨
    takeFrames src (1 + missingTables h.mem dstMap userBase) h.calls h.inUse ≠ none

namespace CopyMaps

variable (hM : CopyMaps K h dstMap srcMap)
include hM

theorem frame (hf : OwnedBy h.mem srcMap f) : f ∈ h.inUse ∧ IsFrame K f := by
  rcases hf with ⟨p, hp⟩ | hmaps
  · exact hM.src.frames srcMap List.mem_cons_self p f hp
  · exact hM.pages srcMap (by simp) f hmaps

/-- The table of the last level in the map that is copied. -/
theorem source_table : ∃ t, reach (tables h.mem) srcMap [pgdIndex userBase, pudIndex userBase] =
    some t := by
  obtain ⟨b, hb⟩ := Option.ne_none_iff_exists'.mp hM.mapped
  rw [walk_userBase] at hb
  obtain ⟨t, ht, -⟩ := leaf_of_lookup hb
  exact ⟨t, ht⟩

end CopyMaps

-- ---------------------------------------------------------------------------
-- The page for the copy
-- ---------------------------------------------------------------------------

/-- A page that was free is outside every frame that was in use. -/
theorem copiedHeap_outside {s : U64} (hpage : IsFrame K page) (hfree : page ∉ h.inUse)
    (hsize : size.toNat ≤ 2 ^ 21) (hf : IsFrame K f) (huse : f ∈ h.inUse) {x : U64}
    (hx : (x - f).toNat < 2 ^ 21) : (copiedHeap (h.withFrame page) page s size).mem x = h.mem x := by
  have hne : f ≠ page := fun he => hfree (he ▸ huse)
  have hout := hf.outside hpage hne hx
  calc (copiedHeap (h.withFrame page) page s size).mem x
      = (h.withFrame page).mem x := if_neg (by omega)
    _ = h.mem x := if_neg (by omega)

/-- The page and its bytes change nothing about the map that it is for. -/
theorem Forest.copied {s : U64} (hF : Forest K h [dstMap]) (hpage : IsFrame K page)
    (hfree : page ∉ h.inUse) (hsize : size.toNat ≤ 2 ^ 21) :
    Forest K (copiedHeap (h.withFrame page) page s size) [dstMap] ∧
      SameWalks [dstMap] h.mem (copiedHeap (h.withFrame page) page s size).mem ∧
      ∀ p, reach (tables (copiedHeap (h.withFrame page) page s size).mem) dstMap p =
        reach (tables h.mem) dstMap p := by
  have huse : ∀ r ∈ [dstMap], ∀ p t, reach (tables h.mem) r p = some t →
      t ∈ (copiedHeap (h.withFrame page) page s size).inUse := fun r hr p t hp =>
    List.mem_cons_of_mem page (hF.frames r hr p t hp).1
  obtain ⟨hF', hwalks, hreach⟩ := hF.transfer huse fun r hr p t hp i => by
    obtain ⟨huse, hf⟩ := hF.frames r hr p t hp
    exact tables_congr (fun x hx => copiedHeap_outside hpage hfree hsize hf huse hx) i
  exact ⟨hF', hwalks, hreach dstMap List.mem_cons_self⟩

/-- As many tables are missing as before. -/
theorem missingTables_congr {m m' : Memory} {map v : U64}
    (hsame : ∀ p t, reach (tables m) map p = some t → ∀ i, tables m' t i = tables m t i) :
    missingTables m' map v = missingTables m map v := by
  rw [missingTables, missingTables, hsame [] map rfl]
  cases hpgd : (tables m map (pgdIndex v)).child with
  | none => rw [Option.elim_none, Option.elim_none]
  | some t =>
    have hreach : reach (tables m) map [pgdIndex v] = some t := by
      rw [reach, hpgd]
      rfl
    rw [Option.elim_some, Option.elim_some, hsame _ t hreach]

-- ---------------------------------------------------------------------------
-- `copy_uvm` without a page, and with one
-- ---------------------------------------------------------------------------

/-- Without a page nothing happens. -/
theorem copyUvm_refused (hnone : src.pick h.calls h.inUse = none) :
    copyUvm src h dstMap srcMap size = .ok (false, { h with calls := h.calls + 1 }) := by
  rw [copyUvm, Heap.kalloc, hnone]
  rfl

/-- With one, `copy_uvm` comes to `map_page`, which returns: it succeeds when no table is
missing for which there is no frame. -/
theorem copyUvm_mapPage (hM : CopyMaps K h dstMap srcMap) (hsize : size.toNat ≤ 2 ^ 21)
    (hpick : src.pick h.calls h.inUse = some page) : ∃ s ok h',
    copyUvm src h dstMap srcMap size = .ok (ok, h') ∧
      mapPage src (copiedHeap (h.withFrame page) page s size) dstMap userBase (v2p page) userAttr =
        .ok (ok, h') ∧
      (ok = true ↔ takeFrames src (1 + missingTables h.mem dstMap userBase) h.calls h.inUse ≠
        none) := by
  obtain ⟨hpage, hfree⟩ := src.fresh hpick
  -- the table of the source is found, and its entry read
  obtain ⟨t, ht⟩ := hM.source_table
  obtain ⟨hFs, -, hreach, -⟩ := hM.src.withFrame hpage hfree
  rw [← hreach srcMap List.mem_cons_self] at ht
  obtain ⟨pd, hfind, hres⟩ := findPudEntry_lookup src 0 (v := userBase) hFs List.mem_cons_self
  obtain ⟨hne, hpd⟩ : pd ≠ 0 ∧ reach (tables (h.withFrame page).mem) srcMap
      [pgdIndex userBase, pudIndex userBase] = some pd := by
    rcases hres with ⟨-, hnone⟩ | hsome
    · rw [ht] at hnone
      cases hnone
    · exact hsome
  have hread := readEntry_eq (i := pmdIndex userBase)
    (hFs.frames srcMap List.mem_cons_self _ pd hpd).1
  -- the new map is as it was
  set s := p2v (pteAddr (read64 (h.withFrame page).mem (entryAddr pd (pmdIndex userBase)))) with hs
  obtain ⟨hFd, hwalks, hsame⟩ := hM.dst.copied (s := s) hpage hfree hsize
  have hunmapped : lookup (tables (copiedHeap (h.withFrame page) page s size).mem) dstMap
      [pgdIndex (paDown userBase), pudIndex (paDown userBase)] (pmdIndex (paDown userBase)) =
        none := by
    rw [hwalks dstMap List.mem_cons_self, paDown_userBase, ← walk_userBase]
    exact hM.unmapped
  obtain ⟨ok, h', hmap⟩ := mapPage_returns src (v := userBase) hFd List.mem_cons_self
    validAttr_userAttr (by decide) hpage.blockAddr.1 hpage.v2p_end hunmapped
  have htakes := mapPage_takes hFd hmap
  have hmissing : missingTables (copiedHeap (h.withFrame page) page s size).mem dstMap userBase =
      missingTables h.mem dstMap userBase := by
    refine missingTables_congr fun p t hp i => ?_
    obtain ⟨huse, hf⟩ := hM.dst.frames dstMap List.mem_cons_self p t hp
    exact tables_congr (fun x hx => copiedHeap_outside hpage hfree hsize hf huse hx) i
  refine ⟨s, ok, h', ?_, hmap, ?_⟩
  · rw [copyUvm, Heap.kalloc_eq hpick]
    dsimp only
    rw [if_neg hpage.ne_zero, Forest.memsetPage_withFrame, hfind, ok_bind]
    dsimp only
    rw [hread, ok_bind]
    exact hmap
  · rw [htakes, paDown_userBase, hmissing, Nat.add_comm 1, takeFrames, hpick, Option.bind_some]
    rfl

/-- `copy_uvm` returns, and nothing of the source has changed. -/
theorem copyUvm_keeps_source (hM : CopyMaps K h dstMap srcMap) (hsize : size.toNat ≤ 2 ^ 21) :
    ∃ ok h', copyUvm src h dstMap srcMap size = .ok (ok, h') ∧ SourceKept h srcMap h' := by
  cases hpick : src.pick h.calls h.inUse with
  | none =>
    exact ⟨false, _, copyUvm_refused hpick, fun f hf => ⟨(hM.frame hf).1, fun _ _ => rfl⟩⟩
  | some page =>
    obtain ⟨hpage, hfree⟩ := src.fresh hpick
    obtain ⟨s, ok, h', hok, hmap, -⟩ := copyUvm_mapPage hM hsize hpick
    refine ⟨ok, h', hok, fun f hown => ?_⟩
    obtain ⟨huse, hf⟩ := hM.frame hown
    obtain ⟨hFd, -, hreach⟩ := hM.dst.copied (s := s) hpage hfree hsize
    obtain ⟨-, h₁, hF₁, -, hgrows, hres⟩ := mapPage_cases hFd List.mem_cons_self
      validAttr_userAttr hmap
    have huse' : f ∈ (copiedHeap (h.withFrame page) page s size).inUse :=
      List.mem_cons_of_mem page huse
    have hnot : ∀ p, reach (tables (copiedHeap (h.withFrame page) page s size).mem) dstMap p ≠
        some f := fun p hp => hM.apart p f ((hreach p).symm.trans hp) hown
    have hsame : ∀ x, (x - f).toNat < 2 ^ 21 → h₁.mem x = h.mem x := fun x hx =>
      (hgrows.outside f huse' hf hnot x hx).trans
        (copiedHeap_outside hpage hfree hsize hf huse hx)
    rcases hres with ⟨-, rfl, -⟩ | ⟨-, c, hc, -, rfl⟩
    · exact ⟨hgrows.used f huse', hsame⟩
    · -- the entry is written in a table of the new map
      have hfc : f ≠ c := by
        rintro rfl
        exact (hgrows.reached _ f hc).elim (hnot _) fun hout => hout huse'
      have hcf := (hF₁.frames dstMap List.mem_cons_self _ c hc).2
      exact ⟨hgrows.used f huse', fun x hx =>
        (write_outside hcf hf hfc _ _ hx).trans (hsame x hx)⟩

/-- **The page leaks.** With a page, and a table missing that there is no frame for,
`copy_uvm` returns `false` and the page belongs to nobody: it is in use, but it did not get into the
map, and nothing else knows of it. -/
theorem copyUvm_leaks (hM : CopyMaps K h dstMap srcMap) (hsize : size.toNat ≤ 2 ^ 21)
    (hfits : ¬ CopyFits src h dstMap) : ∃ h',
    copyUvm src h dstMap srcMap size = .ok (false, h') ∧ ¬ NothingLeaked h dstMap h' := by
  obtain ⟨hpick, htakes⟩ := not_or.mp hfits
  obtain ⟨page, hpick⟩ := Option.ne_none_iff_exists'.mp hpick
  obtain ⟨hpage, hfree⟩ := src.fresh hpick
  obtain ⟨s, ok, h', hok, hmap, hiff⟩ := copyUvm_mapPage hM hsize hpick
  obtain rfl : ok = false := by
    by_contra htrue
    exact htakes (hiff.mp (Bool.eq_true_of_not_eq_false htrue))
  obtain ⟨hFd, hwalks, hreach⟩ := hM.dst.copied (s := s) hpage hfree hsize
  obtain ⟨-, h₁, -, hwalks₁, hgrows, hres⟩ := mapPage_cases hFd List.mem_cons_self
    validAttr_userAttr hmap
  obtain rfl : h' = h₁ := by
    rcases hres with ⟨-, heq, -⟩ | ⟨htrue, -⟩
    · exact heq
    · cases htrue
  have huse : page ∈ (copiedHeap (h.withFrame page) page s size).inUse := List.mem_cons_self
  refine ⟨h', hok, fun hleak => ?_⟩
  rcases hleak page (hgrows.used page huse) hfree with ⟨p, hp⟩ | hmaps
  · -- a table of the new map is an old one, or was free when the page was not
    rcases hgrows.reached p page hp with hp | hout
    · rw [hreach] at hp
      exact hfree (hM.dst.frames dstMap List.mem_cons_self p page hp).1
    · exact hout huse
  · have hold := (maps_congr (hwalks.trans hwalks₁)).mp hmaps
    exact hfree (hM.pages dstMap List.mem_cons_self page hold).1

/-- **When `copy_uvm` leaks nothing.** It returns, with the source map and its page as
they were; and when it returns `false`, every frame that it took is reached from
`dstMap`, exactly if the page was refused or there is a frame for every table too. -/
theorem copy_uvm_leaks_nothing_iff (hM : CopyMaps K h dstMap srcMap) (hsize : size.toNat ≤ 2 ^ 21) :
    (∃ ok h', copyUvm src h dstMap srcMap size = .ok (ok, h') ∧ SourceKept h srcMap h') ∧
      ((∀ h', copyUvm src h dstMap srcMap size = .ok (false, h') → NothingLeaked h dstMap h') ↔
        CopyFits src h dstMap) := by
  refine ⟨copyUvm_keeps_source hM hsize, fun hleak => ?_, fun hfits h' hok => ?_⟩
  · by_contra hfits
    obtain ⟨h', hok, hnot⟩ := copyUvm_leaks hM hsize hfits
    exact hnot (hleak h' hok)
  · cases hpick : src.pick h.calls h.inUse with
    | none =>
      rw [copyUvm_refused hpick] at hok
      cases hok
      exact fun f hf hnew => absurd hf hnew
    | some page =>
      -- with a frame for every table it succeeds
      obtain ⟨s, ok, h₁, hok₁, -, hiff⟩ := copyUvm_mapPage hM hsize hpick
      rw [hok₁] at hok
      cases hok
      have htakes := hfits.resolve_left (by rw [hpick]; exact Option.some_ne_none page)
      exact absurd (hiff.mpr htakes) (by decide)

-- ---------------------------------------------------------------------------
-- A new root
-- ---------------------------------------------------------------------------

/-- `copy_uvm` may be called for a root that has just been taken. -/
theorem CopyMaps.of_fresh (hM : PrivateMap K h srcMap) (hmapped : walk h.mem srcMap userBase ≠ none)
    (hf : IsFrame K dstMap) (hfree : dstMap ∉ h.inUse) :
    CopyMaps K (h.withFrame dstMap) dstMap srcMap := by
  have hroot : EmptyRoot K (h.withFrame dstMap) dstMap :=
    ⟨List.mem_cons_self, hf, fun i => (tables_zeroPage hf hf i).trans (if_pos rfl)⟩
  obtain ⟨hD, hnone, hself⟩ := hroot.alone
  obtain ⟨hS, hown, hwalks⟩ := hM.transfer (h.withFrame dstMap)
    (fun f hf => List.mem_cons_of_mem dstMap (hM.frame hf).1) fun p t hp x hx => by
      obtain ⟨huse, ht⟩ := hM.forest.frames srcMap List.mem_cons_self p t hp
      have hne : t ≠ dstMap := fun he => hfree (he ▸ huse)
      exact if_neg (Nat.not_lt.mpr (ht.outside hf hne hx))
  refine ⟨hD.forest, hS.forest, fun map hmap f hmaps => ?_, fun p t hp hsrc => ?_, ?_, ?_⟩
  · rcases List.mem_cons.mp hmap with rfl | hmap
    · exact absurd hmaps (hnone f)
    · rw [List.mem_singleton.mp hmap] at hmaps
      exact hS.frame (Or.inr hmaps)
  · rw [hself p t hp, hown] at hsrc
    exact hfree (hM.frame hsrc).1
  · rw [walk_userBase, hwalks srcMap List.mem_cons_self, ← walk_userBase]
    exact hmapped
  · rw [walk_userBase]
    by_contra hb
    obtain ⟨b, hb⟩ := Option.ne_none_iff_exists'.mp hb
    exact hnone _ ⟨_, _, b, hb, rfl⟩

/-- A first map with a page, and a second root. -/
theorem two_small_maps : ∃ h, CopyMaps smallImage h 0xffff000000a00000 0xffff000000200000 ∧
    h.calls = 5 ∧ h.inUse = [0xffff000000a00000, 0xffff000000800000, 0xffff000000600000,
      0xffff000000400000, 0xffff000000200000] ∧
    missingTables h.mem 0xffff000000a00000 userBase = 2 := by
  have hroot : EmptyRoot smallImage (emptyHeap.withFrame 0xffff000000200000) 0xffff000000200000 :=
    ⟨List.mem_cons_self, by decide, fun i =>
      (tables_zeroPage (K := smallImage) (by decide) (by decide) i).trans (if_pos rfl)⟩
  have hres : (mapPage (frameRow smallImage 0xffff000000200000)
      ((emptyHeap.withFrame 0xffff000000200000).withFrame 0xffff000000400000)
      0xffff000000200000 userBase (v2p 0xffff000000400000) userAttr).toOption.map (fun x =>
        ((walk x.2.mem 0xffff000000200000 userBase).isSome, x.2.calls, x.2.inUse)) =
      some (true, 4, [0xffff000000800000, 0xffff000000600000, 0xffff000000400000,
        0xffff000000200000]) := by decide +kernel
  obtain ⟨⟨ok, h⟩, hok, hfst⟩ := Option.map_eq_some_iff.mp hres
  obtain ⟨hwalk, hcalls, huse⟩ : (walk h.mem 0xffff000000200000 userBase).isSome = true ∧
      h.calls = 4 ∧ h.inUse = [0xffff000000800000, 0xffff000000600000, 0xffff000000400000,
        0xffff000000200000] := by simpa using hfst
  have hP := (mapPage_fresh hroot (by decide) (by decide) validAttr_userAttr
    (toOption_eq_some.mp hok)).1
  have hfree : (0xffff000000a00000 : U64) ∉ h.inUse := by
    rw [huse]
    decide
  refine ⟨_, CopyMaps.of_fresh hP.alone (Option.isSome_iff_ne_none.mp hwalk) (by decide) hfree,
    ?_, ?_, ?_⟩
  · rw [Heap.withFrame, hcalls]
  · rw [Heap.withFrame, huse]
  · refine EmptyRoot.missingTables (K := smallImage) ⟨List.mem_cons_self, by decide, fun i => ?_⟩
    exact (tables_zeroPage (K := smallImage) (by decide) (by decide) i).trans (if_pos rfl)

/-- With one frame left, the page takes it and stays in use. -/
theorem last_frame_leaks : ∃ h h', CopyMaps smallImage h 0xffff000000a00000 0xffff000000200000 ∧
    copyUvm (frameRow smallImage 0xffff00002f400000) h 0xffff000000a00000 0xffff000000200000
      0x200000 = .ok (false, h') ∧ ¬ NothingLeaked h 0xffff000000a00000 h' := by
  obtain ⟨h, hM, hcalls, huse, hmissing⟩ := two_small_maps
  have hfits : ¬ CopyFits (frameRow smallImage 0xffff00002f400000) h 0xffff000000a00000 := by
    rw [CopyFits, hcalls, huse, hmissing]
    decide +kernel
  obtain ⟨h', hok, hleak⟩ := copyUvm_leaks hM (show (0x200000 : U32).toNat ≤ 2 ^ 21 by decide) hfits
  exact ⟨h, h', hM, hok, hleak⟩

/-- Without a frame left, the copy is refused its page and leaves nothing behind. -/
theorem refused_page_leaks_nothing : ∃ h h', CopyMaps smallImage h 0xffff000000a00000
      0xffff000000200000 ∧
    copyUvm (frameRow smallImage 0xffff00002f600000) h 0xffff000000a00000 0xffff000000200000
      0x200000 = .ok (false, h') ∧ NothingLeaked h 0xffff000000a00000 h' := by
  obtain ⟨h, hM, hcalls, huse, -⟩ := two_small_maps
  have hnone : (frameRow smallImage 0xffff00002f600000).pick h.calls h.inUse = none := by
    rw [hcalls, huse]
    decide +kernel
  have hok : copyUvm (frameRow smallImage 0xffff00002f600000) h 0xffff000000a00000
      0xffff000000200000 0x200000 = .ok (false, { h with calls := h.calls + 1 }) :=
    copyUvm_refused hnone
  exact ⟨h, _, hM, hok,
    (copy_uvm_leaks_nothing_iff hM (by decide)).2.mpr (Or.inl hnone) _ hok⟩

end TinyMultiCore
