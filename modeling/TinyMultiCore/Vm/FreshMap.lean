import TinyMultiCore.Vm.FreeVm

/-!
# The first page of a map

What `setup_uvm` and `copy_uvm` do with a root that is still empty: `map_page` takes
two frames for tables, and one call of `free_vm` undoes everything, whether both were
there or not.
-/

namespace TinyMultiCore

open ByteMemory RadixTree

variable {K : KernelImage} {src : FrameSource K} {h h' : Heap} {map page t v pa attr : U64}
  {i : TableIndex}

theorem walk_userBase (m : Memory) (map : U64) : walk m map userBase =
    lookup (tables m) map [pgdIndex userBase, pudIndex userBase] (pmdIndex userBase) :=
  if_pos (by decide)

theorem paDown_userBase : paDown userBase = userBase := by decide

theorem EmptyRoot.withFrame (hE : EmptyRoot K h map) (hf : IsFrame K page) (hfree : page ∉ h.inUse) :
    EmptyRoot K (h.withFrame page) map where
  used := List.mem_cons_of_mem page hE.used
  frame := hE.frame
  empty i := by
    have hne : map ≠ page := fun he => hfree (he ▸ hE.used)
    rw [Heap.withFrame, tables_zeroPage hf hE.frame, if_neg hne, hE.empty]

/-- What is mapped under an empty root: nothing. -/
theorem EmptyRoot.not_owned (hE : EmptyRoot K h map) {f : U64} (hne : f ≠ map) :
    ¬ OwnedBy h.mem map f := by
  obtain ⟨-, hmaps, hself⟩ := hE.alone
  intro hown
  rcases hown with ⟨p, hp⟩ | hown
  · exact hne (hself p f hp)
  · exact hmaps f hown

variable (src) in
/-- Where nothing is linked in, a new table is, if there is one. -/
theorem findTable_empty (ht : t ∈ h.inUse) (hempty : tables h.mem t i = .empty) :
    findTable src h t i true attr = match src.pick h.calls h.inUse with
      | none => .ok (0, { h with calls := h.calls + 1 })
      | some f => .ok (f, writeEntry (h.withFrame f) t i (v2p f ||| attr ||| tableEntry)) := by
  have hinvalid : ¬ read64 h.mem (entryAddr t i) &&& entryV ≠ 0 :=
    not_not.mpr (slotOf_eq_empty_iff.mp hempty)
  unfold findTable
  rw [readEntry_eq ht, ok_bind, if_neg hinvalid, if_pos rfl]
  rcases h.kalloc_cases src with ⟨hnone, hk⟩ | ⟨f, hpick, hk, hf, -⟩
  · rw [hk, hnone]
    rfl
  · rw [hk, hpick]
    show (if f ≠ 0 then _ else _) = _
    rw [if_pos hf.ne_zero, Forest.memsetPage_withFrame]
    rfl

/-- The answers to `n` calls of `kalloc` in a row, if none is `NULL`. -/
def takeFrames (src : FrameSource K) : Nat → Nat → List U64 → Option (List U64)
  | 0, _, l => some l
  | n + 1, calls, l => (src.pick calls l).bind fun f => takeFrames src n (calls + 1) (f :: l)

/-- How many tables `map_page` has to add for the address `v`. -/
def missingTables (m : Memory) (map v : U64) : Nat :=
  (tables m map (pgdIndex v)).child.elim 2 fun t =>
    if (tables m t (pudIndex v)).child.isNone then 1 else 0

theorem EmptyRoot.missingTables (hE : EmptyRoot K h map) :
    TinyMultiCore.missingTables h.mem map v = 2 := by
  rw [TinyMultiCore.missingTables, hE.empty, Slot.child_empty, Option.elim_none]

variable (src) in
/-- Where a table is linked in, it is found. -/
theorem findTable_node {c : U64} (ht : t ∈ h.inUse) (hnode : tables h.mem t i = .node c) :
    findTable src h t i true attr = .ok (c, h) := by
  have hvalid : read64 h.mem (entryAddr t i) &&& entryV ≠ 0 := fun h0 => by
    have hempty : tables h.mem t i = .empty := slotOf_eq_empty_iff.mpr h0
    rw [hnode] at hempty
    cases hempty
  unfold findTable
  rw [readEntry_eq ht, ok_bind, if_pos hvalid, ← slotOf_eq_node hnode]
  rfl

variable (src attr) in
/-- Both tables are missing: the first of them is linked in empty. -/
theorem findPudEntry_empty (huse : map ∈ h.inUse) (hf : IsFrame K map)
    (hempty : tables h.mem map (pgdIndex v) = .empty) :
    ∃ c h', findPudEntry src h map v true attr = .ok (c, h') ∧
      (c ≠ 0 ↔ takeFrames src 2 h.calls h.inUse ≠ none) := by
  rw [findPudEntry, findPgdEntry, findTable_empty src huse hempty]
  cases hpick : src.pick h.calls h.inUse with
  | none => exact ⟨0, _, rfl, by simp [takeFrames, hpick]⟩
  | some f =>
    obtain ⟨hframe, hfree⟩ := src.fresh hpick
    have hne : f ≠ map := fun he => hfree (he ▸ huse)
    have hnew : tables (writeEntry (h.withFrame f) map (pgdIndex v)
        (v2p f ||| attr ||| tableEntry)).mem f (pudIndex v) = .empty := by
      rw [Forest.tables_writeEntry hf hframe, Store.set, if_neg fun he => hne he.1,
        Heap.withFrame, tables_zeroPage hframe hframe, if_pos rfl]
    dsimp only
    rw [ok_bind]
    dsimp only
    rw [if_neg hframe.ne_zero, findTable_empty src List.mem_cons_self hnew]
    have hsame : src.pick (writeEntry (h.withFrame f) map (pgdIndex v)
        (v2p f ||| attr ||| tableEntry)).calls (writeEntry (h.withFrame f) map (pgdIndex v)
          (v2p f ||| attr ||| tableEntry)).inUse = src.pick (h.calls + 1) (f :: h.inUse) := rfl
    rw [hsame]
    cases hpick₂ : src.pick (h.calls + 1) (f :: h.inUse) with
    | none => exact ⟨0, _, rfl, by simp [takeFrames, hpick, hpick₂]⟩
    | some g =>
      exact ⟨g, _, rfl, iff_of_true (src.fresh hpick₂).1.ne_zero
        (by simp [takeFrames, hpick, hpick₂])⟩

variable (src attr) in
/-- **The table of the last level is found** when there is a frame for every table that is
missing on the way. `missingTables` reads their number off the map before the call, and
`takeFrames` asks the source for as many. -/
theorem findPudEntry_takes (hF : Forest K h [map]) (v : U64) :
    ∃ c h', findPudEntry src h map v true attr = .ok (c, h') ∧
      (c ≠ 0 ↔ takeFrames src (missingTables h.mem map v) h.calls h.inUse ≠ none) := by
  obtain ⟨huse, hroot⟩ := hF.frames map List.mem_cons_self [] map rfl
  cases hpgd : tables h.mem map (pgdIndex v) with
  | empty =>
    rw [missingTables, hpgd, Slot.child_empty, Option.elim_none]
    exact findPudEntry_empty src attr huse hroot hpgd
  | leaf b => exact absurd (hF.leaves map List.mem_cons_self [] map _ b rfl hpgd) (by simp)
  | node t =>
    have hreach : reach (tables h.mem) map [pgdIndex v] = some t :=
      by
      rw [reach, hpgd]
      rfl
    obtain ⟨htuse, htf⟩ := hF.frames map List.mem_cons_self _ t hreach
    rw [findPudEntry, findPgdEntry, findTable_node src huse hpgd, ok_bind, missingTables, hpgd,
      Slot.child_node, Option.elim_some]
    dsimp only
    rw [if_neg htf.ne_zero]
    cases hpud : tables h.mem t (pudIndex v) with
    | leaf b => exact absurd (hF.leaves map List.mem_cons_self _ t _ b hreach hpud) (by simp)
    | node c =>
      have hc := hF.frames map List.mem_cons_self _ c (reach_snoc_eq_some.mpr ⟨t, hreach, hpud⟩)
      exact ⟨c, h, findTable_node src htuse hpud,
        iff_of_true hc.2.ne_zero (by simp [takeFrames])⟩
    | empty =>
      rw [findTable_empty src htuse hpud]
      cases hpick : src.pick h.calls h.inUse with
      | none => exact ⟨0, _, rfl, by simp [takeFrames, hpick]⟩
      | some f =>
        exact ⟨f, _, rfl, iff_of_true (src.fresh hpick).1.ne_zero (by simp [takeFrames, hpick])⟩

/-- **`map_page` succeeds** when there is a frame for every missing table. With `mapPage_cases` alone
it would only be known that one of its calls was refused; here that is decided before the call. -/
theorem mapPage_takes (hF : Forest K h [map]) {ok : Bool}
    (hok : mapPage src h map v pa attr = .ok (ok, h')) :
    ok = true ↔ takeFrames src (missingTables h.mem map (paDown v)) h.calls h.inUse ≠ none := by
  obtain ⟨c, h₁, hfind, htakes⟩ := findPudEntry_takes src attr hF (paDown v)
  unfold mapPage at hok
  dsimp only at hok
  obtain ⟨_, -, hok⟩ := bind_eq_ok.mp hok
  obtain ⟨_, -, hok⟩ := bind_eq_ok.mp hok
  obtain ⟨_, -, hok⟩ := bind_eq_ok.mp hok
  rw [hfind, ok_bind] at hok
  dsimp only at hok
  rw [← htakes]
  by_cases h0 : c = 0
  · rw [if_pos h0] at hok
    cases hok
    exact iff_of_false (by decide) (not_not.mpr h0)
  · rw [if_neg h0] at hok
    obtain ⟨_, -, hok⟩ := bind_eq_ok.mp hok
    obtain ⟨_, -, hok⟩ := bind_eq_ok.mp hok
    cases hok
    exact iff_of_true rfl h0

/-- The first page is mapped when there are frames for both tables. -/
theorem mapPage_first (hE : EmptyRoot K h map) {ok : Bool}
    (hok : mapPage src h map v pa attr = .ok (ok, h')) :
    ok = true ↔ ∃ pud pmd, src.pick h.calls h.inUse = some pud ∧
      src.pick (h.calls + 1) (pud :: h.inUse) = some pmd := by
  rw [mapPage_takes hE.alone.1.forest hok, hE.missingTables, Option.ne_none_iff_isSome]
  cases hpud : src.pick h.calls h.inUse with
  | none => simp [takeFrames, hpud]
  | some pud => cases hpmd : src.pick (h.calls + 1) (pud :: h.inUse) <;> simp [takeFrames, hpud, hpmd]

variable (src attr) in
/-- With frames for both tables, a page taken for an empty root gets mapped, and it stays
zero. -/
theorem mapPage_succeeds (hE : EmptyRoot K h map) (hf : IsFrame K page) (hfree : page ∉ h.inUse)
    (ha : ValidAttr attr) (hv : v.toNat < 2 ^ 48) {pud pmd : U64}
    (hpud : src.pick (h.calls + 1) (page :: h.inUse) = some pud)
    (hpmd : src.pick (h.calls + 2) (pud :: page :: h.inUse) = some pmd) :
    ∃ h', mapPage src (h.withFrame page) map v (v2p page) attr = .ok (true, h') ∧
      ∀ x, (x - page).toNat < 2 ^ 21 → h'.mem x = 0 := by
  have hE' := hE.withFrame hf hfree
  obtain ⟨hM, hmaps, -⟩ := hE'.alone
  obtain ⟨ok, h', hok⟩ := mapPage_returns src (v := v) hM.forest List.mem_cons_self ha hv
    hf.blockAddr.1 hf.v2p_end (by
      by_contra hne
      obtain ⟨b, hb⟩ := Option.ne_none_iff_exists'.mp hne
      exact hmaps _ ⟨_, _, b, hb, rfl⟩)
  obtain rfl : ok = true := (mapPage_first hE' hok).mpr ⟨pud, pmd, hpud, hpmd⟩
  have hne : page ≠ map := fun he => hfree (he ▸ hE.used)
  have hnot := hE'.not_owned hne
  have hP := mapPage_pageMapped hM ha List.mem_cons_self hf hnot hok
  refine ⟨h', hok, fun x hx => ?_⟩
  rw [hP.outside page List.mem_cons_self hf (fun p hp => hnot (Or.inl ⟨p, hp⟩)) x hx]
  exact if_pos hx

/-- The frames of `h` without `map` are what is in use. -/
def Undone (h : Heap) (map : U64) (h' : Heap) : Prop :=
  h'.inUse.Nodup ∧ ∀ f, f ∈ h'.inUse ↔ f ∈ h.inUse ∧ f ≠ map

section

variable (hE : EmptyRoot K h map) (hnd : h.inUse.Nodup) (hf : IsFrame K page)
  (hfree : page ∉ h.inUse) (ha : ValidAttr attr)
include hE hf hfree ha

/-- The page taken for an empty root, and `map_page` with it. -/
theorem mapPage_fresh {ok : Bool}
    (hok : mapPage src (h.withFrame page) map v (v2p page) attr = .ok (ok, h')) :
    PageMapped K map page ok (h.withFrame page) h' ∧
      ∀ f, f ∈ h'.inUse →
        ((OwnedBy h'.mem map f ∨ f = page) ↔ ¬ (f ∈ h.inUse ∧ f ≠ map)) := by
  have hE' := hE.withFrame hf hfree
  obtain ⟨hM, hmaps, hself⟩ := hE'.alone
  have hne : page ≠ map := fun he => hfree (he ▸ hE.used)
  have hnot := hE'.not_owned hne
  have hP := mapPage_pageMapped hM ha List.mem_cons_self hf hnot hok
  refine ⟨hP, fun f hfuse => ⟨fun hown => ?_, fun hout => ?_⟩⟩
  · rintro ⟨hold, hne⟩
    rcases hown with (⟨p, hp⟩ | hown) | rfl
    · -- a table from before is the root
      rcases hP.reached p f hp with hp | hnew
      · exact hne (hself p f hp)
      · exact hnew (List.mem_cons_of_mem page hold)
    · rcases (hP.maps f).mp hown with hown | ⟨-, rfl⟩
      · exact hmaps f hown
      · exact hfree hold
    · exact hfree hold
  · by_cases hroot : f = map
    · exact Or.inl (Or.inl ⟨[], by rw [hroot]; rfl⟩)
    · rcases hP.linked f hfuse with hold | hp
      · rcases List.mem_cons.mp hold with rfl | hold
        · exact Or.inr rfl
        · exact absurd ⟨hold, hroot⟩ hout
      · exact Or.inl (Or.inl hp)

include hnd

/-- **Undoing a successful `map_page`.** The map owned nothing but its root before. Whatever is in
use now and was not is owned by it, the page and the tables on the way, and that is what `free_vm`
frees. -/
theorem freeVm_fresh (hok : mapPage src (h.withFrame page) map v (v2p page) attr = .ok (true, h')) :
    ∃ h'', freeVm src h' map = .ok h'' ∧ Undone h map h'' := by
  obtain ⟨hP, hown⟩ := mapPage_fresh hE hf hfree ha hok
  have hpage : OwnedBy h'.mem map page := Or.inr ((hP.maps page).mpr (Or.inr ⟨rfl, rfl⟩))
  have hnd' := hP.nodup (List.nodup_cons.mpr ⟨hfree, hnd⟩)
  obtain ⟨m, freed, hfreed, -, hmem, -⟩ := freeVm_spec src hP.alone
  refine ⟨_, hfreed, hnd'.diff, fun f => ?_⟩
  rw [Heap.release_inUse, hnd'.mem_sdiff_iff, hmem]
  constructor
  · intro ⟨hfuse, hnot⟩
    by_contra hout
    rcases (hown f hfuse).mpr hout with h | rfl
    · exact hnot h
    · exact hnot hpage
  · intro hin
    have hfuse := hP.used f (List.mem_cons_of_mem page hin.1)
    exact ⟨hfuse, fun h => (hown f hfuse).mp (Or.inl h) hin⟩

/-- **Undoing a failed `map_page`**, after the page has been freed. The page did not get into the
map, so freeing it first takes nothing from what `free_vm` walks through. -/
theorem kfree_freeVm_fresh
    (hok : mapPage src (h.withFrame page) map v (v2p page) attr = .ok (false, h')) :
    ∃ h'', (h'.kfree K page >>= fun h => freeVm src h map) = .ok h'' ∧ Undone h map h'' := by
  obtain ⟨hP, hown⟩ := mapPage_fresh hE hf hfree ha hok
  have hnd' := hP.nodup (List.nodup_cons.mpr ⟨hfree, hnd⟩)
  have hpuse : page ∈ h'.inUse := hP.used page List.mem_cons_self
  have hne : page ≠ map := fun he => hfree (he ▸ hE.used)
  have hnot₀ := (hE.withFrame hf hfree).not_owned hne
  have hnot : ¬ OwnedBy h'.mem map page := by
    intro hpage
    rcases hpage with ⟨p, hp⟩ | hmaps
    · rcases hP.reached p page hp with hp | hnew
      · exact hnot₀ (Or.inl ⟨p, hp⟩)
      · exact hnew List.mem_cons_self
    · rcases (hP.maps page).mp hmaps with hmaps | ⟨h, -⟩
      · exact hnot₀ (Or.inr hmaps)
      · cases h
  rw [Heap.kfree_eq hf hpuse, ok_bind]
  obtain ⟨hM, hsame, -⟩ := hP.alone.transfer (h'.release [page])
    (fun f hf => List.mem_diff_of_mem (hP.alone.frame hf).1 fun hin => by
      rw [List.mem_singleton.mp hin] at hf
      exact hnot hf) fun _ _ _ _ _ => rfl
  obtain ⟨m, freed, hfreed, -, hmem, -⟩ := freeVm_spec src hM
  have hnd'' : (h'.release [page]).inUse.Nodup := hnd'.diff
  refine ⟨_, hfreed, hnd''.diff, fun f => ?_⟩
  rw [Heap.release_inUse, hnd''.mem_sdiff_iff, hmem, hsame, Heap.release_inUse, hnd'.mem_sdiff_iff,
    List.mem_singleton]
  constructor
  · intro ⟨⟨hfuse, hne⟩, hnot⟩
    by_contra hout
    rcases (hown f hfuse).mpr hout with h | h
    · exact hnot h
    · exact hne h
  · intro hin
    have hfuse := hP.used f (List.mem_cons_of_mem page hin.1)
    exact ⟨⟨hfuse, fun he => (hown f hfuse).mp (Or.inr he) hin⟩,
      fun h => (hown f hfuse).mp (Or.inl h) hin⟩

end

end TinyMultiCore
