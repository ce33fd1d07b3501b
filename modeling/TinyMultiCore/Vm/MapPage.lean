import TinyMultiCore.Lib.Run
import TinyMultiCore.Vm.Forest

/-!
# `map_page` and `free_page`

What the functions do to a forest of page tables, and that every forest built by
them is one:

* `findTable_spec` — one level down: the table that is there, a new one linked in,
  or none;
* `mapPage_spec` — a block is mapped at one place, or `kalloc` failed and no
  translation differs;
* `vm_run_forest` — every state that runs of these functions reach is a forest.
-/

namespace TinyMultiCore

open ByteMemory RadixTree TransitionSystem

variable {K : KernelImage} {src : FrameSource K} {h h' : Heap} {roots : List U64}
  {r t v pa attr : U64} {p : List TableIndex} {i : TableIndex}

theorem IsFrame.blockAddr {f : U64} (hf : IsFrame K f) : BlockAddr (v2p f) := by
  have hbase := hf.base_lt
  have halign := hf.1
  have hend := hf.2.2
  rw [memoryEnd_toNat] at hend
  rw [BlockAddr, hf.v2p_toNat]
  rw [kernelBase_toNat] at hbase ⊢
  omega

theorem IsFrame.v2p_end {f : U64} (hf : IsFrame K f) : (v2p f).toNat + 2 ^ 21 ≤ 0x30000000 := by
  have hbase := hf.base_lt
  have hend := hf.2.2
  rw [memoryEnd_toNat] at hend
  rw [hf.v2p_toNat]
  rw [kernelBase_toNat] at hbase ⊢
  omega

theorem readEntry_eq (ht : t ∈ h.inUse) :
    readEntry h t i = .ok (read64 h.mem (entryAddr t i)) := if_pos ht

/-- The kernel's look at an entry of a table that has tables below it. -/
theorem Forest.child_of_valid (hF : Forest K h roots) (hr : r ∈ roots)
    (hp : reach (tables h.mem) r p = some t) (hlen : p.length < 2)
    (hvalid : read64 h.mem (entryAddr t i) &&& entryV ≠ 0) :
    tables h.mem t i = .node (p2v (pdeAddr (read64 h.mem (entryAddr t i)))) := by
  cases hslot : tables h.mem t i with
  | empty => exact absurd (slotOf_eq_empty_iff.mp hslot) hvalid
  | node c => rw [slotOf_eq_node hslot]
  | leaf b =>
    have := hF.leaves r hr p t i b hp hslot
    omega

variable (src) in
/-- **One level down, allocating.** A table that is there is returned; otherwise a frame is taken,
zeroed and linked in, if there is one. Either way every address is translated as before, since a
table without entries maps nothing. -/
theorem findTable_spec (hF : Forest K h roots) (hr : r ∈ roots)
    (hp : reach (tables h.mem) r p = some t) (hlen : p.length < 2) (ha : ValidAttr attr) :
    ∃ c h', findTable src h t i true attr = .ok (c, h') ∧ Forest K h' roots ∧
      SameWalks roots h.mem h'.mem ∧ Grows K r h h' ∧
      ((c = 0 ∧ src.pick h.calls h.inUse = none) ∨
        (c ≠ 0 ∧ reach (tables h'.mem) r (p ++ [i]) = some c)) := by
  have htuse := (hF.frames r hr p t hp).1
  unfold findTable
  rw [readEntry_eq htuse, ok_bind]
  by_cases hvalid : read64 h.mem (entryAddr t i) &&& entryV ≠ 0
  · -- the table is there
    have hnode := hF.child_of_valid hr hp hlen hvalid
    have hreach := reach_snoc_eq_some.mpr ⟨t, hp, hnode⟩
    rw [if_pos hvalid]
    refine ⟨_, h, rfl, hF, fun _ _ _ _ => rfl, .of_same rfl rfl, Or.inr ⟨?_, hreach⟩⟩
    exact (hF.frames r hr _ _ hreach).2.ne_zero
  rw [if_neg hvalid, if_pos rfl]
  rcases h.kalloc_cases src with ⟨hnone, hk⟩ | ⟨f, hpick, hk, hf, hfree⟩
  · rw [hk]
    refine ⟨0, { h with calls := h.calls + 1 }, rfl, ?_, ?_, .of_same rfl rfl,
      Or.inl ⟨rfl, hnone⟩⟩
    · exact ⟨hF.unshared, hF.frames, hF.nodes, hF.leaves⟩
    · exact fun _ _ _ _ => rfl
  · obtain ⟨hF₁, hwalks₁, hreach₁, hfresh, hempty⟩ := hF.withFrame hf hfree
    have hp₁ : reach (tables (h.withFrame f).mem) r p = some t := by rw [hreach₁ r hr, hp]
    have hold : tables h.mem t i = .empty := slotOf_eq_empty_iff.mpr (not_not.mp hvalid)
    have htf : t ≠ f := fun e => hfree (e ▸ htuse)
    have hold₁ : tables (h.withFrame f).mem t i = .empty := by
      rw [Heap.withFrame, tables_zeroPage hf (hF.frames r hr p t hp).2, if_neg htf, hold]
    have hslot := slotOf_table hf.blockAddr ha
    rw [IsFrame.p2v_v2p] at hslot
    obtain ⟨hF₂, hwalks₂, hreach₂⟩ := hF₁.link hr hp₁ hlen hold₁ hf List.mem_cons_self hfresh
      hempty hslot
    have hgrows := hF.grows_link hr hp hf hfree hslot
      (fun q => by rw [hreach₂ r hr, hreach₁ r hr]; simp) hold
    rw [hk]
    refine ⟨f, _, ?_, hF₂, hwalks₁.trans hwalks₂, hgrows,
      Or.inr ⟨hf.ne_zero, by rw [hreach₂ r hr, if_pos ⟨rfl, rfl⟩]⟩⟩
    show (if f ≠ 0 then _ else _) = _
    rw [if_pos hf.ne_zero, Forest.memsetPage_withFrame]
    rfl

variable (src) in
/-- The table of the last level for `v`, allocating. -/
theorem findPudEntry_spec {map : U64} (hF : Forest K h roots) (hr : map ∈ roots)
    (ha : ValidAttr attr) :
    ∃ c h', findPudEntry src h map v true attr = .ok (c, h') ∧ Forest K h' roots ∧
      SameWalks roots h.mem h'.mem ∧ Grows K map h h' ∧
      ((c = 0 ∧ (src.pick h.calls h.inUse = none ∨
          ∃ c₁ h₁, findPgdEntry src h map v true attr = .ok (c₁, h₁) ∧
            src.pick h₁.calls h₁.inUse = none)) ∨
        (c ≠ 0 ∧ reach (tables h'.mem) map [pgdIndex v, pudIndex v] = some c)) := by
  obtain ⟨c₁, h₁, hfind₁, hF₁, hwalks₁, hgrows₁, hres₁⟩ := findTable_spec src
    (i := pgdIndex v) hF hr (reach_nil _ map) (by decide) ha
  rw [findPudEntry, findPgdEntry, hfind₁]
  rcases hres₁ with ⟨rfl, hnone⟩ | ⟨hne, hreach₁⟩
  · exact ⟨0, h₁, rfl, hF₁, hwalks₁, hgrows₁, Or.inl ⟨rfl, Or.inl hnone⟩⟩
  · obtain ⟨c₂, h₂, hfind₂, hF₂, hwalks₂, hgrows₂, hres₂⟩ := findTable_spec src
      (i := pudIndex v) hF₁ hr hreach₁ (by simp) ha
    refine ⟨c₂, h₂, ?_, hF₂, hwalks₁.trans hwalks₂, hgrows₁.trans hgrows₂, ?_⟩
    · show (if c₁ = 0 then _ else _) = _
      rw [if_neg hne, hfind₂]
    · exact hres₂.imp (fun ⟨h0, hnone⟩ => ⟨h0, Or.inr ⟨c₁, h₁, rfl, hnone⟩⟩) id

/-- A block descriptor for any aligned address. -/
theorem slotOf_aligned {x : U64} (hx : x.toNat % 2 ^ 21 = 0) (ha : ValidAttr attr) :
    slotOf (x ||| attr ||| blockEntry) =
      .leaf (pteAddr (x ||| attr), (x ||| attr) &&& attrMask) := by
  have hor : x ||| attr ||| blockEntry = x ||| attr := by simp [blockEntry]
  have hx3 : x &&& 3 = 0 := by
    refine BitVec.eq_of_toNat_eq ?_
    rw [BitVec.toNat_and, show (3 : U64).toNat = 2 ^ 2 - 1 from rfl,
      Nat.and_two_pow_sub_one_eq_mod, show (0 : U64).toNat = 0 from rfl]
    omega
  have htype : (x ||| attr) &&& 3 = 1 := by
    rw [BitVec.and_or_distrib_right, hx3, ha.and]
    have h1 : attr &&& (attrMask &&& 3) = entryV := ha.2
    rw [h1]
    decide
  rw [hor, slotOf, if_neg (by rw [htype]; decide), if_pos htype]

theorem aligned_of_mod {x : U64} (hx : x % pageSize = 0) : x.toNat % 2 ^ 21 = 0 := by
  have := congrArg BitVec.toNat hx
  rw [BitVec.toNat_umod, pageSize_toNat] at this
  exact this

theorem paDown_toNat (v : U64) : (paDown v).toNat = v.toNat / 2 ^ 21 * 2 ^ 21 := by
  have hv := v.isLt
  rw [paDown, BitVec.toNat_shiftLeft, BitVec.toNat_ushiftRight, Nat.shiftRight_eq_div_pow,
    Nat.shiftLeft_eq, show pageShift = 21 from rfl]
  omega

/-- **What `map_page` does** when it returns: tables for the block first, and then,
unless `kalloc` refused one of them, the entry. After a refusal the tables that were linked in
before it stay, and map nothing. -/
theorem mapPage_cases {map : U64} (hF : Forest K h roots) (hr : map ∈ roots) (ha : ValidAttr attr)
    {ok : Bool} (hok : mapPage src h map v pa attr = .ok (ok, h')) :
    pa.toNat % 2 ^ 21 = 0 ∧
      ∃ h₁, Forest K h₁ roots ∧ SameWalks roots h.mem h₁.mem ∧ Grows K map h h₁ ∧
        ((ok = false ∧ h' = h₁ ∧ (src.pick h.calls h.inUse = none ∨
            ∃ c₁ h₁, findPgdEntry src h map (paDown v) true attr = .ok (c₁, h₁) ∧
              src.pick h₁.calls h₁.inUse = none)) ∨
          (ok = true ∧ ∃ c,
            reach (tables h₁.mem) map [pgdIndex (paDown v), pudIndex (paDown v)] = some c ∧
            tables h₁.mem c (pmdIndex (paDown v)) = .empty ∧
            h' = writeEntry h₁ c (pmdIndex (paDown v)) (pa ||| attr ||| blockEntry))) := by
  unfold mapPage at hok
  dsimp only at hok
  obtain ⟨-, -, hok⟩ := bind_eq_ok.mp hok
  obtain ⟨_, halign, hok⟩ := bind_eq_ok.mp hok
  obtain ⟨-, -, hok⟩ := bind_eq_ok.mp hok
  rw [kernelAssert_eq_ok] at halign
  obtain ⟨c, h₁, hfind, hF₁, hwalks, hgrows, hres⟩ :=
    findPudEntry_spec src (v := paDown v) hF hr ha
  refine ⟨aligned_of_mod halign, h₁, hF₁, hwalks, hgrows, ?_⟩
  rw [hfind, ok_bind] at hok
  rcases hres with ⟨rfl, hnone⟩ | ⟨hne, hreach⟩
  · -- no table for the block
    obtain ⟨rfl, rfl⟩ := Prod.mk.inj (Except.ok.inj hok)
    exact Or.inl ⟨rfl, rfl, hnone⟩
  · dsimp only at hok
    rw [if_neg hne, readEntry_eq (hF₁.frames map hr _ c hreach).1, ok_bind] at hok
    obtain ⟨_, hempty, hok⟩ := bind_eq_ok.mp hok
    cases hok
    exact Or.inr ⟨rfl, c, hreach, slotOf_eq_empty_iff.mpr (kernelAssert_eq_ok.mp hempty), rfl⟩

/-- **`map_page`**, when it returns: with `true`, exactly one block of one map has another
translation; with `false`, none has, and one of its two calls of `kalloc` was refused. -/
theorem mapPage_spec {map : U64} (hF : Forest K h roots) (hr : map ∈ roots) (ha : ValidAttr attr)
    {ok : Bool} (hok : mapPage src h map v pa attr = .ok (ok, h')) :
    Forest K h' roots ∧
      (ok = true → ∀ r ∈ roots, ∀ q j, lookup (tables h'.mem) r q j =
        if r = map ∧ q = [pgdIndex (paDown v), pudIndex (paDown v)] ∧ j = pmdIndex (paDown v)
        then some (pteAddr (pa ||| attr), (pa ||| attr) &&& attrMask)
        else lookup (tables h.mem) r q j) ∧
      (ok = false → SameWalks roots h.mem h'.mem ∧
        (src.pick h.calls h.inUse = none ∨
          ∃ c₁ h₁, findPgdEntry src h map (paDown v) true attr = .ok (c₁, h₁) ∧
            src.pick h₁.calls h₁.inUse = none)) := by
  obtain ⟨halign, h₁, hF₁, hwalks, -, hres⟩ := mapPage_cases hF hr ha hok
  rcases hres with ⟨rfl, rfl, hnone⟩ | ⟨rfl, c, hreach, -, rfl⟩
  · exact ⟨hF₁, fun htrue => absurd htrue (by decide), fun _ => ⟨hwalks, hnone⟩⟩
  · have hslot := slotOf_aligned halign ha
    obtain ⟨hF₂, hlookup, -⟩ := hF₁.writeLeaf (i := pmdIndex (paDown v)) hr hreach rfl
      (show (slotOf (pa ||| attr ||| blockEntry)).child = none by rw [hslot]; rfl)
    refine ⟨hF₂, fun _ r' hr' q j => ?_, fun htrue => by cases htrue⟩
    rw [hlookup r' hr', hslot, hwalks r' hr']
    rfl

variable (src) in
/-- `map_page` on a slot that is not mapped returns. -/
theorem mapPage_returns {map : U64} (hF : Forest K h roots) (hr : map ∈ roots)
    (ha : ValidAttr attr) (hv : v.toNat < 2 ^ 48) (hpa : pa.toNat % 2 ^ 21 = 0)
    (hpa' : pa.toNat + 2 ^ 21 ≤ 0x30000000)
    (hfree : lookup (tables h.mem) map [pgdIndex (paDown v), pudIndex (paDown v)]
      (pmdIndex (paDown v)) = none) :
    ∃ ok h', mapPage src h map v pa attr = .ok (ok, h') := by
  have hdown := paDown_toNat v
  have hsize : pageSize.toNat = 2 ^ 21 := rfl
  have h1 : paDown v + pageSize < memoryEnd := by
    rw [BitVec.lt_def, BitVec.toNat_add, hdown, hsize, memoryEnd_toNat]
    omega
  have h2 : pa % pageSize = 0 := by
    refine BitVec.eq_of_toNat_eq ?_
    rw [BitVec.toNat_umod, pageSize_toNat]
    exact hpa
  have h3 : pa + pageSize ≤ v2p memoryEnd := by
    rw [BitVec.le_def, BitVec.toNat_add, hsize, show (v2p memoryEnd).toNat = 0x30000000 by decide]
    omega
  obtain ⟨c, h₁, hfind, hF₁, hwalks, -, hres⟩ :=
    findPudEntry_spec src (v := paDown v) hF hr ha
  unfold mapPage
  dsimp only
  rw [kernelAssert_pos h1, kernelAssert_pos h2, kernelAssert_pos h3,
    ok_bind, ok_bind, ok_bind, hfind, ok_bind]
  rcases hres with ⟨rfl, -⟩ | ⟨hne, hreach⟩
  · exact ⟨false, h₁, rfl⟩
  · dsimp only
    have hslot : tables h₁.mem c (pmdIndex (paDown v)) = .empty := by
      have hnone := hwalks map hr [pgdIndex (paDown v), pudIndex (paDown v)] (pmdIndex (paDown v))
      rw [hfree, lookup, hreach] at hnone
      cases hslot : tables h₁.mem c (pmdIndex (paDown v)) with
      | empty => rfl
      | node b =>
        have := hF₁.nodes map hr _ c _ b hreach hslot
        simp at this
      | leaf b =>
        rw [Option.bind_some, hslot] at hnone
        cases hnone
    rw [if_neg hne, readEntry_eq (hF₁.frames map hr _ c hreach).1, ok_bind,
      kernelAssert_pos (slotOf_eq_empty_iff.mp hslot), ok_bind]
    exact ⟨true, _, rfl⟩

/-! ## `free_page` -/

variable (src attr) in
/-- One level down, not allocating. -/
theorem findTable_lookup (hF : Forest K h roots) (hr : r ∈ roots)
    (hp : reach (tables h.mem) r p = some t) (hlen : p.length < 2) :
    ∃ c, findTable src h t i false attr = .ok (c, h) ∧
      ((c = 0 ∧ tables h.mem t i = .empty) ∨
        (c ≠ 0 ∧ reach (tables h.mem) r (p ++ [i]) = some c)) := by
  unfold findTable
  rw [readEntry_eq (hF.frames r hr p t hp).1, ok_bind]
  by_cases hvalid : read64 h.mem (entryAddr t i) &&& entryV ≠ 0
  · have hnode := hF.child_of_valid hr hp hlen hvalid
    have hreach := reach_snoc_eq_some.mpr ⟨t, hp, hnode⟩
    rw [if_pos hvalid]
    exact ⟨_, rfl, Or.inr ⟨(hF.frames r hr _ _ hreach).2.ne_zero, hreach⟩⟩
  · rw [if_neg hvalid, if_neg (by decide)]
    exact ⟨0, rfl, Or.inl ⟨rfl, slotOf_eq_empty_iff.mpr (not_not.mp hvalid)⟩⟩

variable (src attr) in
/-- The table of the last level for `v`, if there is one. -/
theorem findPudEntry_lookup {map : U64} (hF : Forest K h roots) (hr : map ∈ roots) :
    ∃ c, findPudEntry src h map v false attr = .ok (c, h) ∧
      ((c = 0 ∧ reach (tables h.mem) map [pgdIndex v, pudIndex v] = none) ∨
        (c ≠ 0 ∧ reach (tables h.mem) map [pgdIndex v, pudIndex v] = some c)) := by
  obtain ⟨c₁, hfind₁, hres₁⟩ := findTable_lookup src attr (i := pgdIndex v)
    hF hr (reach_nil _ map) (by decide)
  rw [findPudEntry, findPgdEntry, hfind₁, ok_bind]
  dsimp only
  rcases hres₁ with ⟨rfl, hempty⟩ | ⟨hne, hreach₁⟩
  · refine ⟨0, rfl, Or.inl ⟨rfl, ?_⟩⟩
    simp [reach, hempty]
  · obtain ⟨c₂, hfind₂, hres₂⟩ := findTable_lookup src attr
      (i := pudIndex v) hF hr hreach₁ (by simp)
    rw [if_neg hne, hfind₂]
    refine ⟨c₂, rfl, ?_⟩
    rcases hres₂ with ⟨h0, hempty⟩ | hreach₂
    · refine Or.inl ⟨h0, ?_⟩
      rw [show [pgdIndex v, pudIndex v] = [] ++ [pgdIndex v] ++ [pudIndex v] from rfl, reach_snoc,
        hreach₁, Option.bind_some, hempty]
      rfl
    · exact Or.inr hreach₂

theorem kfree_mem {v : U64} (hfree : h.kfree K v = .ok h') : h'.mem = h.mem := by
  rw [(Heap.kfree_spec hfree).2]

/-- **`free_page`** leaves a forest of the same tables. The frames that a forest needs are the
tables, not the pages they map, so it is the same with the freed page still in use. -/
theorem freePage_forest {map : U64} (hF : Forest K h roots) (hr : map ∈ roots)
    (hok : freePage src h map v = .ok h') :
    Forest K { h' with inUse := h.inUse } roots := by
  unfold freePage at hok
  obtain ⟨c, hfind, hres⟩ := findPudEntry_lookup src 0 (v := v) hF hr
  rw [hfind, ok_bind] at hok
  dsimp only at hok
  rcases hres with ⟨rfl, -⟩ | ⟨hne, hreach⟩
  · cases hok
    exact hF
  rw [if_pos hne, readEntry_eq (hF.frames map hr _ c hreach).1, ok_bind] at hok
  split at hok
  · obtain ⟨h₁, hfree, hok⟩ := bind_eq_ok.mp hok
    cases hok
    have hchild : (slotOf 0).child = none := by rw [slotOf_zero]; rfl
    have hleaf := (hF.writeLeaf (i := pmdIndex v) hr hreach rfl hchild).1
    unfold writeEntry at hleaf ⊢
    rw [kfree_mem hfree]
    exact ⟨hleaf.unshared, hleaf.frames, hleaf.nodes, hleaf.leaves⟩
  · cases hok
    exact hF

/-! ## Runs -/

/-- The heap, and the roots of the maps in it. -/
structure VmState where
  heap : Heap
  roots : List U64

inductive VmOp where
  /-- A new empty map. -/
  | newMap
  | mapPage (map v pa attr : U64)
  | freePage (map v : U64)
  /-- Anything else the kernel does with memory and frames. -/
  | elsewhere

/-- One call on a map, or a change elsewhere. Whether the frame that `free_page`
gives up is handed out again is left to `elsewhere`, which may do anything but
write to the tables or make their frames free. -/
def VmStep (src : FrameSource K) (s : VmState) : VmOp → VmState → Prop
  | .newMap, s' => ∃ f h, s.heap.kalloc src = (f, h) ∧ f ≠ 0 ∧
      s' = ⟨h.memsetPage f, f :: s.roots⟩
  | .mapPage map v pa attr, s' => map ∈ s.roots ∧ ValidAttr attr ∧
      ∃ ok h, mapPage src s.heap map v pa attr = .ok (ok, h) ∧ s' = ⟨h, s.roots⟩
  | .freePage map v, s' => map ∈ s.roots ∧
      ∃ h, freePage src s.heap map v = .ok h ∧
        s' = ⟨{ h with inUse := s.heap.inUse }, s.roots⟩
  | .elsewhere, s' => s'.roots = s.roots ∧
      ∀ r ∈ s.roots, ∀ p t, reach (tables s.heap.mem) r p = some t →
        t ∈ s'.heap.inUse ∧ ∀ x, (x - t).toNat < 2 ^ 21 → s'.heap.mem x = s.heap.mem x

theorem Forest.newMap (hF : Forest K h roots) {f : U64} (hf : IsFrame K f) (hfree : f ∉ h.inUse) :
    Forest K (h.withFrame f) (f :: roots) := by
  obtain ⟨hF', -, -, hfresh, hempty⟩ := hF.withFrame hf hfree
  -- nothing but itself is reached from the new root
  have hself : ∀ q t, reach (tables (h.withFrame f).mem) f q = some t → q = [] ∧ t = f := by
    intro q t hq
    cases q with
    | nil => exact ⟨rfl, (Option.some.inj hq).symm⟩
    | cons j q => simp [reach, hempty] at hq
  refine ⟨?_, ?_, ?_, ?_⟩
  · intro r₁ h₁ r₂ h₂ q₁ q₂ a hq₁ hq₂
    rcases List.mem_cons.mp h₁ with rfl | hm₁ <;> rcases List.mem_cons.mp h₂ with rfl | hm₂
    · exact ⟨rfl, (hself q₁ a hq₁).1.trans (hself q₂ a hq₂).1.symm⟩
    · obtain ⟨-, rfl⟩ := hself q₁ a hq₁
      exact absurd hq₂ (hfresh r₂ hm₂ q₂)
    · obtain ⟨-, rfl⟩ := hself q₂ a hq₂
      exact absurd hq₁ (hfresh r₁ hm₁ q₁)
    · exact hF'.unshared r₁ hm₁ r₂ hm₂ q₁ q₂ a hq₁ hq₂
  · intro r hr q t hq
    rcases List.mem_cons.mp hr with rfl | hr
    · obtain ⟨-, rfl⟩ := hself q t hq
      exact ⟨List.mem_cons_self, hf⟩
    · exact hF'.frames r hr q t hq
  · intro r hr q t i c hq hc
    rcases List.mem_cons.mp hr with rfl | hr
    · obtain ⟨-, rfl⟩ := hself q t hq
      rw [hempty i] at hc
      cases hc
    · exact hF'.nodes r hr q t i c hq hc
  · intro r hr q t i b hq hb
    rcases List.mem_cons.mp hr with rfl | hr
    · obtain ⟨-, rfl⟩ := hself q t hq
      rw [hempty i] at hb
      cases hb
    · exact hF'.leaves r hr q t i b hq hb

theorem VmStep.forest {s s' : VmState} {op : VmOp} (hF : Forest K s.heap s.roots)
    (hstep : VmStep src s op s') : Forest K s'.heap s'.roots := by
  cases op with
  | newMap =>
    obtain ⟨f, h, hk, hne, rfl⟩ := hstep
    rcases s.heap.kalloc_cases src with ⟨-, hk'⟩ | ⟨f', -, hk', hf, hfree⟩
    · rw [hk] at hk'
      exact absurd (congrArg Prod.fst hk') hne
    · rw [hk] at hk'
      obtain ⟨rfl, rfl⟩ := Prod.mk.inj hk'
      rw [Forest.memsetPage_withFrame]
      exact hF.newMap hf hfree
  | mapPage map v pa attr =>
    obtain ⟨hr, ha, ok, h, hok, rfl⟩ := hstep
    exact (mapPage_spec hF hr ha hok).1
  | freePage map v =>
    obtain ⟨hr, h, hok, rfl⟩ := hstep
    exact freePage_forest hF hr hok
  | elsewhere =>
    obtain ⟨hroots, hsame⟩ := hstep
    rw [hroots]
    exact (hF.transfer (fun r hr p t hp => (hsame r hr p t hp).1)
      fun r hr p t hp i => tables_congr (hsame r hr p t hp).2 i).1

theorem vm_run_forest {h₀ : Heap} {ops : List VmOp} {s : VmState}
    (hrun : Run (VmStep src) ⟨h₀, []⟩ ops s) : Forest K s.heap s.roots :=
  hrun.invariant (P := fun s => Forest K s.heap s.roots) (C := fun _ _ => True)
    (fun _ _ _ hF _ hstep => hstep.forest hF)
    ⟨by simp [Unshared], by simp, by simp, by simp⟩ (by simp [EveryStep])

/-! ## Translations -/

/-- Two user addresses have the same indices when they are in the same block. -/
theorem indices_eq_iff {va : U64} (hva : va.toNat < 2 ^ 48) (hv : v.toNat < 2 ^ 48) :
    ([pgdIndex va, pudIndex va] = [pgdIndex (paDown v), pudIndex (paDown v)] ∧
      pmdIndex va = pmdIndex (paDown v)) ↔ va.toNat / 2 ^ 21 = v.toNat / 2 ^ 21 := by
  simp only [List.cons.injEq, and_true, ← BitVec.toNat_inj, pgdIndex, pudIndex, pmdIndex,
    BitVec.toNat_setWidth, BitVec.toNat_ushiftRight, Nat.shiftRight_eq_div_pow, paDown_toNat]
  omega

/-- **`map_page` installs one translation.** In every state that runs of these
functions reach, for a user address whose block is not mapped and a physical block
below the end of memory: `map_page` returns. If it returns `true`, the addresses of
the block are translated to the physical block with the attributes, and no other
address in any map is translated differently. If it returns `false`, no address is,
and `kalloc` refused at one of the two levels. -/
theorem map_page_translates {h₀ : Heap} {ops : List VmOp} {s : VmState}
    (hrun : Run (VmStep src) ⟨h₀, []⟩ ops s) {map : U64} (hmap : map ∈ s.roots)
    (hv : v.toNat < 2 ^ 48) (hfree : walk s.heap.mem map v = none)
    (hpa : pa.toNat % 2 ^ 21 = 0) (hpa' : pa.toNat + 2 ^ 21 ≤ 0x30000000) (ha : ValidAttr attr) :
    ∃ ok h', mapPage src s.heap map v pa attr = .ok (ok, h') ∧
      (ok = true → ∀ map' ∈ s.roots, ∀ va, walk h'.mem map' va =
        if map' = map ∧ va.toNat / 2 ^ 21 = v.toNat / 2 ^ 21 then some (pa, attr)
        else walk s.heap.mem map' va) ∧
      (ok = false → (∀ map' ∈ s.roots, ∀ va, walk h'.mem map' va = walk s.heap.mem map' va) ∧
        (src.pick s.heap.calls s.heap.inUse = none ∨
          ∃ c₁ h₁, findPgdEntry src s.heap map (paDown v) true attr = .ok (c₁, h₁) ∧
            src.pick h₁.calls h₁.inUse = none)) := by
  have hF := vm_run_forest hrun
  have hindex := (indices_eq_iff hv hv).mpr rfl
  rw [walk, if_pos hv, hindex.1, hindex.2] at hfree
  obtain ⟨ok, h', hok⟩ := mapPage_returns src hF hmap ha hv hpa hpa' hfree
  obtain ⟨-, htrue, hfalse⟩ := mapPage_spec hF hmap ha hok
  refine ⟨ok, h', hok, fun hb map' hmap' va => ?_, fun hb => ?_⟩
  · have hleaf := (slotOf_aligned hpa ha).symm.trans (slotOf_block ⟨hpa, by omega⟩ ha)
    unfold walk
    by_cases hva : va.toNat < 2 ^ 48
    · rw [if_pos hva, if_pos hva, htrue hb map' hmap', Slot.leaf.inj hleaf]
      exact if_congr (and_congr_right fun _ => indices_eq_iff hva hv) rfl rfl
    · -- not a user address
      rw [if_neg hva, if_neg hva, if_neg (by omega)]
  · obtain ⟨hsame, hnone⟩ := hfalse hb
    refine ⟨fun map' hmap' va => ?_, hnone⟩
    unfold walk
    rw [hsame map' hmap']

/-- A first page in a new map, and what an address in it is translated to. -/
theorem map_first_page : ∃ h',
    mapPage (frameRow smallImage 0xffff000000200000) (emptyHeap.withFrame 0xffff000000200000)
      0xffff000000200000 0x400000 0x800000 0x445 = .ok (true, h') ∧
    walk h'.mem 0xffff000000200000 0x412345 = some (0x800000, 0x445) := by
  have hrun : Run (VmStep (frameRow smallImage 0xffff000000200000)) ⟨emptyHeap, []⟩ [.newMap]
      ⟨emptyHeap.withFrame 0xffff000000200000, [0xffff000000200000]⟩ := by
    have hstep : VmStep (frameRow smallImage 0xffff000000200000) ⟨emptyHeap, []⟩ .newMap
        ⟨emptyHeap.withFrame 0xffff000000200000, [0xffff000000200000]⟩ :=
      ⟨0xffff000000200000, _, Heap.kalloc_eq (by decide), by decide,
        by rw [Forest.memsetPage_withFrame]⟩
    exact Run.nil.snoc hstep
  have hfree : walk (emptyHeap.withFrame 0xffff000000200000).mem 0xffff000000200000 0x400000 =
      none := by decide +kernel
  obtain ⟨ok, h', hok, htrue, -⟩ := map_page_translates (v := 0x400000) hrun List.mem_cons_self
    (by decide) hfree (show (0x800000 : U64).toNat % 2 ^ 21 = 0 by decide) (by decide)
    (show ValidAttr 0x445 from ⟨by decide, by decide⟩)
  have hres : (mapPage (frameRow smallImage 0xffff000000200000)
      (emptyHeap.withFrame 0xffff000000200000) 0xffff000000200000 0x400000 0x800000
      0x445).toOption.map Prod.fst = some true := by decide +kernel
  rw [hok] at hres
  obtain rfl : ok = true := Option.some.inj hres
  refine ⟨h', hok, ?_⟩
  rw [htrue rfl _ List.mem_cons_self, if_pos ⟨rfl, by decide⟩]

end TinyMultiCore
