import TinyMultiCore.Buddy.Coalesce

/-!
# Safety of the allocator over whole runs

From `buddy_init` on, and for any order of `kalloc` and `kfree` calls by clients
who free only what they hold, is the allocator's state `Safe`? The free lists are
rings, no block is on them twice, and the free blocks and the allocated pages are
disjoint parts of the region.

`kalloc` always keeps that. `kfree` keeps it exactly when `buddy_free` does not
link a node in twice (`doubleInserts`), so a run is safe throughout exactly when
none of its `kfree` calls does (`alloc_run_safe_iff`).
-/

namespace TinyMultiCore

open IntrusiveRing TransitionSystem

/-- The lists `L` of the state are well formed. -/
structure WellFormedLists (start size : U64) (s : AllocState) (L : FreeLists) : Prop where
  /-- Each list leads from its head through its blocks back to the same head, by
  `next`, and the same way back by `prev`. -/
  rings : ∀ i < maxOrder, Ring s.allocator.links (.head i) ((L i).map .block)
  /-- No block is on two lists, or twice on one. -/
  once : (L.blocks.map Block.addr).Nodup
  /-- Free blocks and allocated pages are pairwise disjoint. -/
  apart : (L.blocks ++ s.live.map pageBlock).Pairwise (Block.Apart start)
  inside : ∀ b ∈ L.blocks ++ s.live.map pageBlock, b.hi start ≤ size.toNat

def Safe (start size : U64) (s : AllocState) : Prop :=
  s.allocator.startAddr = start ∧ ∃ L, WellFormedLists start size s L

/-- The call does not link a node in twice. -/
def NoDoubleInsert (s : AllocState) : AllocOp → Prop
  | .kalloc => True
  | .kfree v => doubleInserts s.allocator v 0 = false

variable {kernelEnd start size : U64} {s t : AllocState} {L : FreeLists}

theorem wellFormedLists_iff : WellFormedLists start size s L ↔
    Represents start size s.allocator.links L (s.live.map pageBlock) :=
  ⟨fun h => ⟨h.rings, h.apart, h.inside⟩,
    fun h => ⟨h.rings, h.listed.nodup, h.carved.apart, h.carved.inside⟩⟩

/-! ## `kalloc` -/

/-- Clearing a held page touches no node of the lists. -/
theorem Represents.memsetPage {m : NodeLinks} {held : List Block} {p : U64}
    (h : Represents start size m L (pageBlock p :: held)) :
    Represents start size (memsetPage m p) L (pageBlock p :: held) := by
  refine ⟨fun i hi => (h.rings i hi).frame fun z hz => ?_, h.carved⟩
  rcases List.mem_cons.mp hz with rfl | hz
  · exact ⟨rfl, rfl⟩
  obtain ⟨a, ha, rfl⟩ := List.mem_map.mp hz
  -- a block apart from the page does not start inside it
  have hmem : (⟨a, i⟩ : Block) ∈ L.blocks ++ held :=
    List.mem_append_left _ (FreeLists.mem_blocks.mpr ⟨hi, ha⟩)
  have hc := h.carved.perm List.perm_middle
  have hap := (List.pairwise_cons.mp hc.apart).1 _ hmem
  have hin := hc.inside _ List.mem_cons_self
  have hin' := hc.inside _ (List.mem_cons_of_mem _ hmem)
  have hout : ¬ a - p < pageSize := by
    have hpos := Block.bytes_pos ⟨a, i⟩
    have hsz := size.isLt
    simp only [Block.Apart, Block.hi, Block.lo, pageBlock_bytes] at hap hin hin'
    have hsub : a - p = (a - start) - ((pageBlock p).addr - start) := by
      simp only [pageBlock]
      bv_omega
    rw [BitVec.lt_def, hsub, BitVec.toNat_sub, pageSize_toNat]
    omega
  simp [TinyMultiCore.memsetPage, hout]

/-- **`kalloc`** on well-formed lists: no page is left and nothing changes, or the
first free page becomes held; at the address 0 it is lost, since that is `NULL`. -/
theorem kalloc_cases {a : BuddyAllocator} {held : List Block}
    (h : Represents start size a.links L held) :
    (kalloc a = .ok (0, a) ∧ ∀ i < maxOrder, L i = []) ∨
    ∃ res a' L', FirstFree L 0 res ∧ kalloc a = .ok (res, a') ∧ a'.startAddr = a.startAddr ∧
      Represents start size a'.links L' (if res = 0 then held else pageBlock res :: held) ∧
      bytesOf L'.blocks + 2 ^ pageShift = bytesOf L.blocks := by
  rw [kalloc]
  rcases buddyAlloc_spec h (show 0 < maxOrder by decide) with
    ⟨hnone, hempty⟩ | ⟨b, m', L', hfirst, hok, hrep, hbytes⟩
  · rw [hnone]
    exact Or.inl ⟨rfl, fun i hi => hempty i (Nat.zero_le i) hi⟩
  · rw [hok]
    rw [Nat.zero_add] at hbytes
    refine Or.inr ?_
    by_cases hb : b = 0
    · subst hb
      exact ⟨0, _, L', hfirst, rfl, rfl, by simpa using hrep.forget, hbytes⟩
    · refine ⟨b, { a with links := memsetPage m' b }, L', hfirst, ?_, rfl, ?_, hbytes⟩
      · simp only [bind, Except.bind, if_neg hb]
        rfl
      · rw [if_neg hb]
        exact Represents.memsetPage hrep

theorem kalloc_spec {a : BuddyAllocator} {held : List Block}
    (h : Represents start size a.links L held) :
    ∃ res a' L', kalloc a = .ok (res, a') ∧ a'.startAddr = a.startAddr ∧
      Represents start size a'.links L' (if res = 0 then held else pageBlock res :: held) := by
  rcases kalloc_cases h with ⟨hnone, -⟩ | ⟨res, a', L', -, hok, hst, hrep, -⟩
  · exact ⟨0, a, L, hnone, rfl, by simpa using h⟩
  · exact ⟨res, a', L', hok, hst, hrep⟩

/-- A page that `kalloc` returns is not allocated. -/
theorem kalloc_fresh (hs : Safe start size s) {res : U64} {a : BuddyAllocator}
    (hk : kalloc s.allocator = .ok (res, a)) (hres : res ≠ 0) : res ∉ s.live := by
  obtain ⟨-, L, hL⟩ := hs
  obtain ⟨res', a', L', hk', -, hrep⟩ := kalloc_spec (wellFormedLists_iff.mp hL)
  rw [hk] at hk'
  cases hk'
  rw [if_neg hres] at hrep
  intro hlive
  have hmem : pageBlock res ∈ L'.blocks ++ s.live.map pageBlock :=
    List.mem_append_right _ (List.mem_map_of_mem hlive)
  exact (hrep.carved.perm List.perm_middle).head_addr_ne hmem rfl

/-! ## `kfree` -/

theorem kfree_eq_ok {a a' : BuddyAllocator} {v : U64} (h : kfree kernelEnd a v = .ok a') :
    buddyFree a v 0 = .ok a' := by
  rw [kfree] at h
  obtain ⟨-, -, h⟩ := bind_eq_ok.mp h
  obtain ⟨-, -, h⟩ := bind_eq_ok.mp h
  obtain ⟨-, -, h⟩ := bind_eq_ok.mp h
  exact h

/-- The freed page taken out of the allocated ones. -/
theorem represents_live {m : NodeLinks} {live : List U64} {v : U64} (hv : v ∈ live)
    (h : Represents start size m L (live.map pageBlock)) :
    Represents start size m L (pageBlock v :: (live.erase v).map pageBlock) :=
  h.perm ((List.perm_cons_erase hv).map pageBlock)

/-- The allocated pages after a `kalloc`, as blocks. -/
theorem live_map {live : List U64} {res : U64} :
    (if res = 0 then live else res :: live).map pageBlock =
      if res = 0 then live.map pageBlock else pageBlock res :: live.map pageBlock := by
  split <;> rfl

/-! ## Steps and runs -/

/-- **One call.** From a safe state the allocator gets to a safe state exactly
when the call does not link a node in twice. -/
theorem allocStep_safe_iff (hs : Safe start size s) {op : AllocOp}
    (hstep : AllocStep kernelEnd s op t) : Safe start size t ↔ NoDoubleInsert s op := by
  obtain ⟨hstart, L, hL⟩ := hs
  have hrep := wellFormedLists_iff.mp hL
  cases op with
  | kalloc =>
    obtain ⟨res, a, hk, rfl⟩ := hstep
    simp only [NoDoubleInsert, iff_true]
    obtain ⟨res', a', L', hk', hst, hrep'⟩ := kalloc_spec hrep
    rw [hk] at hk'
    cases hk'
    rw [← live_map] at hrep'
    exact ⟨hst.trans hstart, L', wellFormedLists_iff.mpr hrep'⟩
  | kfree v =>
    obtain ⟨hv, a, hk, rfl⟩ := hstep
    have hfree := kfree_eq_ok hk
    have hheld := represents_live hv hrep
    rw [← hstart] at hheld ⊢
    simp only [NoDoubleInsert]
    cases hd : doubleInserts s.allocator v 0 with
    | false =>
      simp only [iff_true]
      obtain ⟨a', L', hrun, hst, hrep', -⟩ := buddyFree_spec (by decide) hheld hd
      rw [hfree] at hrun
      cases hrun
      exact ⟨hst, L', wellFormedLists_iff.mpr hrep'⟩
    | true =>
      simp only [Bool.true_eq_false, iff_false]
      rintro ⟨-, L', hL'⟩
      obtain ⟨j, c, hj, hcross⟩ := buddyFree_crossed (by decide) hheld hd hfree
      exact hcross.not_rings hj hL'.rings

/-- **Safety of the allocator.** `buddy_init` on any 2MB-aligned region returns,
and a run of calls after it is safe in every state it reaches exactly when none
of its `kfree` calls links a node in twice. In such a run `kalloc` never returns
a page that is still allocated. -/
theorem alloc_run_safe_iff (kernelEnd : U64) (m : NodeLinks) {start : U64} (size : U64)
    (hs : start % pageSize = 0) :
    ∃ a, buddyInit m start size = .ok a ∧
      ∀ ops s, Run (AllocStep kernelEnd) ⟨a, []⟩ ops s →
        (Always (AllocStep kernelEnd) ⟨a, []⟩ ops (Safe start size) ↔
          EveryStep (AllocStep kernelEnd) ⟨a, []⟩ ops NoDoubleInsert) ∧
        (EveryStep (AllocStep kernelEnd) ⟨a, []⟩ ops NoDoubleInsert →
          ∀ pre post t res a', ops = pre ++ .kalloc :: post →
            Run (AllocStep kernelEnd) ⟨a, []⟩ pre t →
            kalloc t.allocator = .ok (res, a') → res ≠ 0 → res ∉ t.live) := by
  obtain ⟨a, L, hinit, hstart, hrep⟩ := (buddyInit_spec m hs :
    ∃ a L, buddyInit m start size = .ok a ∧ a.startAddr = start ∧
      Represents start size a.links L [])
  refine ⟨a, hinit, fun ops s hrun => ?_⟩
  have h0 : Safe start size ⟨a, []⟩ := ⟨hstart, L, wellFormedLists_iff.mpr hrep⟩
  have hiff := hrun.always_iff allocStep_unique (fun _ ht => ht)
    (fun t op u (ht : Safe start size t) hC hstep => (allocStep_safe_iff ht hstep).mpr hC)
    (fun t op u ht hstep hu => (allocStep_safe_iff ht hstep).mp hu) h0
  refine ⟨hiff, fun hc pre post t res a' he ht hk hres => ?_⟩
  exact kalloc_fresh (hiff.mpr hc pre _ t he ht) hk hres

/-- On a region of 4MB: the page freed finds its buddy free and nothing above the pair,
so that it is linked in once, and the next call returns it again. -/
theorem freed_page_comes_back : ∃ a s, buddyInit nullLinks 0xffff000000800000 0x400000 = .ok a ∧
    Run (AllocStep 0xffff000000700000) ⟨a, []⟩ [.kalloc, .kfree 0xffff000000800000, .kalloc] s ∧
    s.live = [0xffff000000800000] ∧ Safe 0xffff000000800000 0x400000 s := by
  have hcalls : (buddyInit nullLinks 0xffff000000800000 0x400000).toOption.bind (fun a =>
      (callAll 0xffff000000700000 ⟨a, []⟩ [.kalloc]).bind fun t =>
        (callAll 0xffff000000700000 t [.kfree 0xffff000000800000, .kalloc]).map fun s =>
          (s.live, doubleInserts t.allocator 0xffff000000800000 0)) =
      some ([0xffff000000800000], false) := by decide +kernel
  obtain ⟨a, hinit, hcalls⟩ := Option.bind_eq_some_iff.mp hcalls
  obtain ⟨t, hfirst, hcalls⟩ := Option.bind_eq_some_iff.mp hcalls
  obtain ⟨s, hrest, hres⟩ := Option.map_eq_some_iff.mp hcalls
  obtain ⟨hlive, honce⟩ := Prod.mk.inj hres
  have hrun := (callAll_run hfirst).append (callAll_run hrest)
  obtain ⟨a', hinit', hruns⟩ := alloc_run_safe_iff 0xffff000000700000 nullLinks 0x400000
    (show (0xffff000000800000 : U64) % pageSize = 0 by decide)
  have hinit := toOption_eq_some.mp hinit
  obtain rfl : a' = a := Except.ok.inj (hinit'.symm.trans hinit)
  -- the only `kfree` is the one in `t`
  have hsteps : EveryStep (AllocStep 0xffff000000700000) ⟨a', []⟩
      [.kalloc, .kfree 0xffff000000800000, .kalloc] NoDoubleInsert :=
    .cons trivial fun u hu => .cons
      (by rwa [Run.unique allocStep_unique (Run.nil.snoc hu) (callAll_run hfirst)])
      fun _ _ => .cons trivial fun _ _ => .nil
  exact ⟨a', s, hinit, hrun, hlive, (hruns _ s hrun).1.mpr hsteps _ [] s rfl hrun⟩

/-- On a region of 8MB: the page freed is the lower half of the lower half, and
`buddy_free` finds a free buddy above it at the orders 0 and 1. The node is on the
lists of both orders then, and the next two `kalloc` calls return the same page. -/
theorem kalloc_returns_allocated_page : ∃ a s,
    buddyInit nullLinks 0xffff000000800000 0x800000 = .ok a ∧
    Run (AllocStep 0xffff000000700000) ⟨a, []⟩
      [.kalloc, .kfree 0xffff000000800000, .kalloc, .kalloc] s ∧
    s.live = [0xffff000000800000, 0xffff000000800000] ∧
    ¬ Safe 0xffff000000800000 0x800000 s := by
  obtain ⟨a, s, hinit, hrun, hlive⟩ := liveAfter_run (show
    liveAfter 0xffff000000700000 nullLinks 0xffff000000800000 0x800000
      [.kalloc, .kfree 0xffff000000800000, .kalloc, .kalloc] =
      some [0xffff000000800000, 0xffff000000800000] by decide +kernel)
  refine ⟨a, s, hinit, hrun, hlive, ?_⟩
  rintro ⟨-, L, hL⟩
  have hcarved := (wellFormedLists_iff.mp hL).carved.perm List.perm_append_comm
  rw [hlive] at hcarved
  exact hcarved.head_addr_ne List.mem_cons_self rfl

end TinyMultiCore
