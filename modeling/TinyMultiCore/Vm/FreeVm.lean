import Mathlib.Data.List.Perm.Subperm
import TinyMultiCore.Vm.PrivateMap

/-!
# `free_vm`

* `freeVm_spec` — on a map that owns what it reaches, `free_vm` frees the root, the
  tables and the pages, each once;
* `free_vm_frees_once` — so it does for every map that calls of `map_page` build.
-/

namespace TinyMultiCore

open ByteMemory RadixTree TransitionSystem

variable {K : KernelImage} {src : FrameSource K} {h : Heap} {map v : U64}

-- ---------------------------------------------------------------------------
-- `free_page`
-- ---------------------------------------------------------------------------

/-- What `free_page` leaves of a map: the memory is `m` and the frames `fs` are free. What
is left is a map of its own again, and it has lost these frames and nothing else. -/
structure PageFreed (K : KernelImage) (h : Heap) (map : U64) (m : Memory) (fs : List U64) :
    Prop where
  nodup : fs.Nodup
  alone : PrivateMap K ({ h with mem := m }.release fs) map
  owned : ∀ f, OwnedBy h.mem map f ↔ f ∈ fs ∨ OwnedBy m map f
  gone : ∀ f ∈ fs, ¬ OwnedBy m map f
  /-- Only the tables of the map are written. -/
  outside : ∀ x, (∀ p t, reach (tables h.mem) map p = some t → 2 ^ 21 ≤ (x - t).toNat) →
    m x = h.mem x

theorem PageFreed.nothing (hM : PrivateMap K h map) : PageFreed K h map h.mem [] :=
  ⟨List.nodup_nil, hM, by simp, by simp, fun _ _ => rfl⟩

/-- When one entry is cleared and all tables stay linked, the map loses the page of the
entry, which is mapped nowhere else, and keeps the rest. -/
theorem PrivateMap.owned_cleared (hM : PrivateMap K h map) {m : Memory} {p : List TableIndex}
    {i : TableIndex} {b : Mapping} (hb : lookup (tables h.mem) map p i = some b)
    (hreach : ∀ q, reach (tables m) map q = reach (tables h.mem) map q)
    (hlookup : ∀ q j, lookup (tables m) map q j =
      if q = p ∧ j = i then none else lookup (tables h.mem) map q j) :
    (∀ f, OwnedBy h.mem map f ↔ f = pageOf b ∨ OwnedBy m map f) ∧
      ¬ OwnedBy m map (pageOf b) := by
  refine ⟨fun f => ⟨fun hown => ?_, fun hown => ?_⟩, fun hown => ?_⟩
  · rcases hown with ⟨q, hq⟩ | ⟨q, j, b', hb', hbb⟩
    · exact Or.inr (Or.inl ⟨q, by rw [hreach, hq]⟩)
    · by_cases hslot : q = p ∧ j = i
      · obtain ⟨rfl, rfl⟩ := hslot
        rw [hb] at hb'
        exact Or.inl (by rw [← hbb, Option.some.inj hb'])
      · exact Or.inr (Or.inr ⟨q, j, b', by rw [hlookup, if_neg hslot, hb'], hbb⟩)
  · rcases hown with rfl | ⟨q, hq⟩ | ⟨q, j, b', hb', hbb⟩
    · exact Or.inr ⟨p, i, b, hb, rfl⟩
    · exact Or.inl ⟨q, by rw [← hreach, hq]⟩
    · rw [hlookup] at hb'
      split at hb'
      · cases hb'
      · exact Or.inr ⟨q, j, b', hb', hbb⟩
  · rcases hown with ⟨q, hq⟩ | ⟨q, j, b', hb', hbb⟩
    · rw [hreach] at hq
      exact hM.apart p i b q hb hq
    · rw [hlookup] at hb'
      split at hb'
      · cases hb'
      · rename_i hnot
        exact hnot (hM.once q j b' p i b hb' hb hbb)

/-- The entry of a mapped page is cleared, and its page is free. -/
theorem PageFreed.entry (hM : PrivateMap K h map) {c : U64} {i : TableIndex} {b : Mapping}
    {p : List TableIndex} (hreach : reach (tables h.mem) map p = some c) (hlen : p.length = 2)
    (hb : tables h.mem c i = .leaf b) :
    PageFreed K h map (writeEntry h c i 0).mem [pageOf b] := by
  obtain ⟨hM', hreach', hlookup'⟩ := hM.writeEntry (i := i) (e := 0) hreach hlen
    (by rw [slotOf_zero]; rfl) (fun b h0 => by rw [slotOf_zero] at h0; cases h0)
  rw [slotOf_zero] at hlookup'
  obtain ⟨howned, hgone⟩ := hM.owned_cleared (lookup_of_leaf hreach hb) hreach' hlookup'
  refine ⟨List.nodup_singleton _, ?_, fun f => by rw [List.mem_singleton, howned], ?_, ?_⟩
  · refine (hM'.transfer ({ h with mem := _ }.release _) (fun f hf => ?_) fun _ _ _ _ _ => rfl).1
    refine List.mem_diff_of_mem (hM'.frame hf).1 fun hin => ?_
    rw [List.mem_singleton.mp hin] at hf
    exact hgone hf
  · intro f hf
    rwa [List.mem_singleton.mp hf]
  · intro x hx
    have hfar := hx _ c hreach
    have hi := i.isLt
    exact if_neg (Nat.not_lt.mpr (outside_entry _ (Or.inr (by omega))))

variable (src) in
/-- **`free_page`** on a map alone: the page is freed and the map does without it. It looks the
entry up without allocating, and does nothing where a table is missing or the entry is not valid. -/
theorem freePage_spec (hM : PrivateMap K h map) : ∃ m fs,
    freePage src h map v = .ok ({ h with mem := m }.release fs) ∧ PageFreed K h map m fs := by
  obtain ⟨c, hfind, hres⟩ := findPudEntry_lookup src 0 (v := v) hM.forest List.mem_cons_self
  unfold freePage
  rw [hfind, ok_bind]
  dsimp only
  rcases hres with ⟨rfl, -⟩ | ⟨hne, hreach⟩
  · -- no table for the address
    rw [if_neg (by simp)]
    exact ⟨h.mem, [], rfl, .nothing hM⟩
  obtain ⟨hcuse, -⟩ := hM.forest.frames map List.mem_cons_self _ c hreach
  rw [if_pos hne, readEntry_eq hcuse, ok_bind]
  by_cases hvalid : read64 h.mem (entryAddr c (pmdIndex v)) &&& entryV ≠ 0
  · rw [if_pos hvalid]
    obtain ⟨b, hb⟩ : ∃ b, tables h.mem c (pmdIndex v) = .leaf b := by
      cases hslot : tables h.mem c (pmdIndex v) with
      | empty => exact absurd (slotOf_eq_empty_iff.mp hslot) hvalid
      | node a =>
        have := hM.forest.nodes map List.mem_cons_self _ c _ a hreach hslot
        simp at this
      | leaf b => exact ⟨b, rfl⟩
    obtain ⟨hbuse, hbframe⟩ := hM.pages _ _ b (lookup_of_leaf hreach hb)
    have haddr : p2v (pteAddr (read64 h.mem (entryAddr c (pmdIndex v)))) = pageOf b := by
      rw [pageOf, ← slotOf_eq_leaf hb]
    refine ⟨(writeEntry h c (pmdIndex v) 0).mem, [pageOf b], ?_, .entry hM hreach rfl hb⟩
    rw [haddr, Heap.kfree_eq hbframe hbuse]
    rfl
  · rw [if_neg hvalid]
    exact ⟨h.mem, [], rfl, .nothing hM⟩

-- ---------------------------------------------------------------------------
-- `free_vm`
-- ---------------------------------------------------------------------------

variable (src) in
/-- **`free_vm`** frees what the map owns. It frees the page of the program first and clears its
entry, then the tables with whatever else they map, then the root; nothing is freed twice since a
map alone holds each frame at one place. No byte outside of its tables changes. -/
theorem freeVm_spec (hM : PrivateMap K h map) : ∃ m freed,
    freeVm src h map = .ok ({ h with mem := m }.release freed) ∧ freed.Nodup ∧
    (∀ f, f ∈ freed ↔ OwnedBy h.mem map f) ∧
    ∀ x, (∀ p t, reach (tables h.mem) map p = some t → 2 ^ 21 ≤ (x - t).toNat) →
      m x = h.mem x := by
  obtain ⟨m, fs, hpage, hnd, hM₁, hown, hgone, hsame⟩ := freePage_spec src (v := userBase) hM
  have hmem : ∀ f, f ∈ postorder pageOf (tables m) (indices 512) 2 map ↔
      ∃ p i, Holds pageOf (tables m) map p i f := by
    intro f
    rw [mem_postorder mem_indices]
    exact ⟨fun ⟨p, i, _, hf⟩ => ⟨p, i, hf⟩, fun ⟨p, i, hf⟩ => ⟨p, i, hM₁.holds_length hf, hf⟩⟩
  have hroot : map ∉ postorder pageOf (tables m) (indices 512) 2 map := by
    intro hin
    obtain ⟨p, i, hf⟩ := (hmem map).mp hin
    exact hM₁.root_not_held hf
  have hframe : ∀ f ∈ postorder pageOf (tables m) (indices 512) 2 map,
      f ∈ h.inUse.diff fs ∧ IsFrame K f := by
    intro f hf
    exact hM₁.frame (ownedBy_iff.mpr (Or.inr ((hmem f).mp hf)))
  obtain ⟨hrootuse, hrootframe⟩ := hM₁.frame (ownedBy_iff.mpr (Or.inl rfl))
  have hlevels : Levels m 2 map := hM₁.levels (reach_nil _ map) rfl
  have hnd₂ : (postorder pageOf (tables m) (indices 512) 2 map).Nodup :=
    nodup_postorder mem_indices nodup_indices 2 hM₁.holdsOnce
  have htable := freeTable_spec (K := K) (h := { h with mem := m }.release fs) hlevels rfl hnd₂
    (fun f hf => (hframe f hf).1) (fun f hf => (hframe f hf).2) hrootuse hroot
  generalize postorder pageOf (tables m) (indices 512) 2 map = l at hmem hroot hframe htable hnd₂
  refine ⟨m, fs ++ (l ++ [map]), ?_, ?_, ?_, hsame⟩
  · unfold freeVm
    have hin : map ∈ (({ h with mem := m }.release fs).release l).inUse :=
      List.mem_diff_of_mem hrootuse hroot
    rw [hpage, ok_bind, htable, ok_bind, Heap.kfree_eq hrootframe hin, Heap.release_append,
      Heap.release_append]
  · refine List.nodup_append.mpr ⟨hnd, List.nodup_append.mpr ⟨hnd₂, List.nodup_singleton _, ?_⟩, ?_⟩
    · rintro f hf g hg rfl
      rw [List.mem_singleton.mp hg] at hf
      exact hroot hf
    · rintro f hf g hg rfl
      refine hgone f hf (ownedBy_iff.mpr ?_)
      rcases List.mem_append.mp hg with hg | hg
      · exact Or.inr ((hmem f).mp hg)
      · exact Or.inl (List.mem_singleton.mp hg)
  · intro f
    rw [hown f, ownedBy_iff, List.mem_append, List.mem_append, List.mem_singleton, hmem,
      or_comm (a := f = map)]

-- ---------------------------------------------------------------------------
-- Building a map
-- ---------------------------------------------------------------------------

/-- A map under construction: the pages taken for it and not mapped yet, and those
that are. -/
structure BuildState where
  heap : Heap
  spare : List U64
  mapped : List U64

inductive BuildOp where
  /-- A page for the map. -/
  | kalloc
  /-- `map_page(map, v, V2P(f), attr)`, whether it succeeds or not. -/
  | mapPage (v f attr : U64)
  /-- Anything else the kernel does with memory and frames. -/
  | elsewhere

/-- One call, or a change elsewhere: the tables keep their bytes, and the frames of
the map stay in use. -/
def BuildStep (src : FrameSource K) (map : U64) (s : BuildState) : BuildOp → BuildState → Prop
  | .kalloc, s' => ∃ f h, s.heap.kalloc src = (f, h) ∧ f ≠ 0 ∧ s' = ⟨h, f :: s.spare, s.mapped⟩
  | .mapPage v f attr, s' => f ∈ s.spare ∧ v.toNat < 2 ^ 48 ∧ ValidAttr attr ∧
      ∃ ok h, mapPage src s.heap map v (v2p f) attr = .ok (ok, h) ∧
        s' = if ok then ⟨h, s.spare.erase f, f :: s.mapped⟩ else ⟨h, s.spare, s.mapped⟩
  | .elsewhere, s' => s'.spare = s.spare ∧ s'.mapped = s.mapped ∧ s'.heap.inUse.Nodup ∧
      (∀ f ∈ s.spare ++ s.mapped, f ∈ s'.heap.inUse) ∧
      ∀ p t, reach (tables s.heap.mem) map p = some t →
        t ∈ s'.heap.inUse ∧ ∀ x, (x - t).toNat < 2 ^ 21 → s'.heap.mem x = s.heap.mem x

/-- The map owns its tables and the mapped pages, and not the spare ones. -/
structure BuildInv (K : KernelImage) (map : U64) (s : BuildState) : Prop where
  alone : PrivateMap K s.heap map
  nodup : s.heap.inUse.Nodup
  maps : ∀ f, Maps s.heap.mem map f ↔ f ∈ s.mapped
  spare : ∀ f ∈ s.spare, f ∈ s.heap.inUse ∧ IsFrame K f ∧ ¬ OwnedBy s.heap.mem map f
  spare_nodup : s.spare.Nodup

theorem BuildStep.inv {s s' : BuildState} {op : BuildOp} (hI : BuildInv K map s)
    (hstep : BuildStep src map s op s') : BuildInv K map s' := by
  cases op with
  | kalloc =>
    obtain ⟨f, h, hk, hne, rfl⟩ := hstep
    rcases s.heap.kalloc_cases src with ⟨-, hk'⟩ | ⟨f', -, hk', hf, hfree⟩
    · rw [hk] at hk'
      exact absurd (congrArg Prod.fst hk') hne
    rw [hk] at hk'
    obtain ⟨rfl, rfl⟩ := Prod.mk.inj hk'
    obtain ⟨hM, hown, hwalks⟩ := hI.alone.transfer (s.heap.withFrame f)
      (fun g hg => List.mem_cons_of_mem f (hI.alone.frame hg).1) (fun p t hp x hx => by
        obtain ⟨htuse, ht⟩ := hI.alone.forest.frames map List.mem_cons_self p t hp
        have htf : t ≠ f := fun htf => hfree (htf ▸ htuse)
        exact if_neg (Nat.not_lt.mpr (ht.outside hf htf hx)))
    refine ⟨hM, List.nodup_cons.mpr ⟨hfree, hI.nodup⟩, ?_, ?_, ?_⟩
    · intro g
      rw [maps_congr hwalks]
      exact hI.maps g
    · intro g hg
      rw [hown]
      rcases List.mem_cons.mp hg with rfl | hg
      · exact ⟨List.mem_cons_self, hf, fun hown => hfree (hI.alone.frame hown).1⟩
      · obtain ⟨huse, hgf, hnot⟩ := hI.spare g hg
        exact ⟨List.mem_cons_of_mem f huse, hgf, hnot⟩
    · exact List.nodup_cons.mpr ⟨fun hin => hfree (hI.spare f hin).1, hI.spare_nodup⟩
  | mapPage v f attr =>
    obtain ⟨hf, -, ha, ok, h, hok, hs'⟩ := hstep
    obtain ⟨huse, hframe, hnot⟩ := hI.spare f hf
    have hP := mapPage_pageMapped hI.alone ha huse hframe hnot hok
    -- a spare page is not owned unless it was mapped just now
    have hspare : ∀ g ∈ s.spare, ¬ (ok = true ∧ g = f) →
        g ∈ h.inUse ∧ IsFrame K g ∧ ¬ OwnedBy h.mem map g := by
      intro g hg hne
      obtain ⟨hguse, hgf, hgnot⟩ := hI.spare g hg
      refine ⟨hP.used g hguse, hgf, fun hown => ?_⟩
      rcases hown with ⟨p, hp⟩ | hmaps
      · rcases hP.reached p g hp with hp | hout
        · exact hgnot (Or.inl ⟨p, hp⟩)
        · exact hout hguse
      · rcases (hP.maps g).mp hmaps with hmaps | hnew
        · exact hgnot (Or.inr hmaps)
        · exact hne hnew
    cases ok with
    | false =>
      obtain rfl : s' = ⟨h, s.spare, s.mapped⟩ := hs'
      refine ⟨hP.alone, hP.nodup hI.nodup, fun g => ?_, fun g hg => hspare g hg (by simp),
        hI.spare_nodup⟩
      rw [hP.maps, hI.maps]
      simp
    | true =>
      obtain rfl : s' = ⟨h, s.spare.erase f, f :: s.mapped⟩ := hs'
      refine ⟨hP.alone, hP.nodup hI.nodup, fun g => ?_, fun g hg => ?_, hI.spare_nodup.erase f⟩
      · rw [hP.maps, hI.maps]
        simp [or_comm]
      · refine hspare g (List.mem_of_mem_erase hg) fun hgf => ?_
        exact (hI.spare_nodup.mem_erase_iff.mp hg).1 hgf.2
  | elsewhere =>
    obtain ⟨hspare, hmapped, hnd, huse, hsame⟩ := hstep
    obtain ⟨hM, hown, hwalks⟩ := hI.alone.transfer s'.heap
      (fun f hf => by
        rcases hf with ⟨p, hp⟩ | hmaps
        · exact (hsame p f hp).1
        · exact huse f (List.mem_append_right _ ((hI.maps f).mp hmaps)))
      fun p t hp => (hsame p t hp).2
    refine ⟨hM, hnd, fun f => ?_, fun f hf => ?_, hspare ▸ hI.spare_nodup⟩
    · rw [maps_congr hwalks, hmapped]
      exact hI.maps f
    · rw [hspare] at hf
      rw [hown]
      exact ⟨huse f (List.mem_append_left _ hf), (hI.spare f hf).2⟩

/-- **`free_vm` frees a whole address space exactly once.** However a map was built from
an empty root, `free_vm` returns: so every page it gave to `kfree` passed the checks and
was in use, and no table was read after it was freed. The frames that it took out of
use are the root, every table below it and every mapped page, and no others. -/
theorem free_vm_frees_once {h₀ : Heap} {ops : List BuildOp} {s : BuildState}
    (hrun : Run (BuildStep src map) ⟨h₀, [], []⟩ ops s) (hnd : h₀.inUse.Nodup)
    (huse : map ∈ h₀.inUse) (hf : IsFrame K map) (hempty : ∀ i, tables h₀.mem map i = .empty) :
    ∃ h' freed, freeVm src s.heap map = .ok h' ∧ freed.Nodup ∧
      (∀ f, f ∈ freed ↔ (∃ p, reach (tables s.heap.mem) map p = some f) ∨ f ∈ s.mapped) ∧
      (∀ f ∈ freed, IsFrame K f) ∧ s.heap.inUse.Perm (freed ++ h'.inUse) := by
  obtain ⟨hM, hmaps, -⟩ := (EmptyRoot.mk huse hf hempty).alone
  have hI : BuildInv K map s := hrun.invariant (P := BuildInv K map) (C := fun _ _ => True)
    (fun _ _ _ hI _ hstep => hstep.inv hI)
    ⟨hM, hnd, by simp [hmaps], by simp, List.nodup_nil⟩ (by simp [EveryStep])
  obtain ⟨m, freed, hok, hnd, hmem, -⟩ := freeVm_spec src hI.alone
  have hown : ∀ f ∈ freed, f ∈ s.heap.inUse ∧ IsFrame K f := fun f hf =>
    hI.alone.frame ((hmem f).mp hf)
  refine ⟨_, freed, hok, hnd, fun f => ?_, fun f hf => (hown f hf).2, ?_⟩
  · rw [hmem, OwnedBy, hI.maps]
  · refine (List.subperm_append_diff_self_of_count_le fun f hf => ?_).symm
    rw [List.count_eq_one_of_mem hnd hf]
    exact List.one_le_count_iff.mpr (hown f hf).1

/-- A map with two pages that share their tables: `free_vm` frees the root, the two tables
and the pages, each once. -/
theorem free_shared_tables : ∃ (ops : List BuildOp) (s : BuildState) (h' : Heap)
      (freed : List U64),
    Run (BuildStep (frameRow smallImage 0xffff000000200000) 0xffff000000200000)
      ⟨emptyHeap.withFrame 0xffff000000200000, [], []⟩ ops s ∧
    s.mapped = [0xffff000000a00000, 0xffff000000400000] ∧
    freeVm (frameRow smallImage 0xffff000000200000) s.heap 0xffff000000200000 = .ok h' ∧
    s.heap.inUse.length = 5 ∧ (∀ f ∈ s.heap.inUse, f ∈ freed) ∧ freed.Nodup ∧
    s.heap.inUse.Perm (freed ++ h'.inUse) := by
  set src := frameRow smallImage 0xffff000000200000 with hsrc
  set root : U64 := 0xffff000000200000 with hroot
  have hcalls : (mapPage src ((emptyHeap.withFrame root).withFrame 0xffff000000400000) root
        0x400000 (v2p 0xffff000000400000) 0x445).toOption.bind (fun x =>
      (mapPage src (x.2.withFrame 0xffff000000a00000) root
        0x600000 (v2p 0xffff000000a00000) 0x445).toOption.map fun y =>
          ((x.1, y.1), src.pick x.2.calls x.2.inUse, y.2.inUse,
            reach (tables y.2.mem) root [0], reach (tables y.2.mem) root [0, 0])) =
      some ((true, true), some 0xffff000000a00000,
        [0xffff000000a00000, 0xffff000000800000, 0xffff000000600000, 0xffff000000400000, root],
        some 0xffff000000600000, some 0xffff000000800000) := by
    decide +kernel
  obtain ⟨⟨ok₁, h₁⟩, hmap₁, hcalls⟩ := Option.bind_eq_some_iff.mp hcalls
  obtain ⟨⟨ok₂, h₂⟩, hmap₂, hres⟩ := Option.map_eq_some_iff.mp hcalls
  obtain ⟨⟨rfl, rfl⟩, hpick, huse, hpud, hpmd⟩ : (ok₁ = true ∧ ok₂ = true) ∧
      src.pick h₁.calls h₁.inUse = some 0xffff000000a00000 ∧
      h₂.inUse = [0xffff000000a00000, 0xffff000000800000, 0xffff000000600000,
        0xffff000000400000, root] ∧
      reach (tables h₂.mem) root [0] = some 0xffff000000600000 ∧
      reach (tables h₂.mem) root [0, 0] = some 0xffff000000800000 := by simpa using hres
  have hrun : Run (BuildStep src root) ⟨emptyHeap.withFrame root, [], []⟩
      [.kalloc, .mapPage 0x400000 0xffff000000400000 0x445, .kalloc,
        .mapPage 0x600000 0xffff000000a00000 0x445]
      ⟨h₂, [], [0xffff000000a00000, 0xffff000000400000]⟩ :=
    .cons ⟨_, _, Heap.kalloc_eq (by decide), by decide, rfl⟩ <|
    .cons ⟨List.mem_cons_self, by decide, ⟨by decide, by decide⟩, true, h₁,
      toOption_eq_some.mp hmap₁, rfl⟩ <|
    .cons ⟨_, _, Heap.kalloc_eq hpick, by decide, rfl⟩ <|
    .cons ⟨List.mem_cons_self, by decide, ⟨by decide, by decide⟩, true, h₂,
      toOption_eq_some.mp hmap₂, rfl⟩ .nil
  have hempty : ∀ i, tables (emptyHeap.withFrame root).mem root i = .empty := fun i => by
    rw [Heap.withFrame, tables_zeroPage (K := smallImage) (by decide) (by decide), if_pos rfl]
  obtain ⟨h', freed, hfree, hnd, hmem, -, hperm⟩ := free_vm_frees_once hrun
    (List.nodup_singleton _) List.mem_cons_self (by decide) hempty
  refine ⟨_, _, h', freed, hrun, rfl, hfree, by rw [huse]; rfl, fun f hf => ?_, hnd, hperm⟩
  rw [hmem]
  rw [huse] at hf
  simp only [List.mem_cons, List.not_mem_nil, or_false] at hf
  rcases hf with rfl | rfl | rfl | rfl | rfl
  · exact Or.inr List.mem_cons_self
  · exact Or.inl ⟨_, hpmd⟩
  · exact Or.inl ⟨_, hpud⟩
  · exact Or.inr (List.mem_cons_of_mem _ List.mem_cons_self)
  · exact Or.inl ⟨[], rfl⟩

end TinyMultiCore
