import TinyMultiCore.Buddy.Halves
import TinyMultiCore.Buddy.Safety
import TinyMultiCore.Vm.FreeTable

/-!
# The buddy allocator gives frames

The other parts of the kernel rely on a `FrameSource` and not on buddies: `kalloc` returns `NULL` or
some frame that is not in use. That is what the buddy allocator does from `init_memory` on, for as
long as `buddy_free` links no node in twice.

* `AllocInv.kalloc` and `AllocInv.kfree` — the free blocks and the allocated pages stay pages between
  the kernel and the end of the memory;
* `buddy_gives_frames` — one frame source stands for the allocator in a whole run.
-/

namespace TinyMultiCore

open IntrusiveRing TransitionSystem

variable {K : KernelImage} {src : FrameSource K} {start size : U64} {m : NodeLinks} {L L' : FreeLists}
  {held : List Block} {s t : AllocState} {h h' h₀ : Heap} {ops : List AllocOp} {op : AllocOp}
  {f v : U64}

-- ---------------------------------------------------------------------------
-- Pages
-- ---------------------------------------------------------------------------

/-- `PA_UP(v)` -/
def paUp (v : U64) : U64 := ((v + pageSize - 1) >>> pageShift) <<< pageShift

/-- `init_memory` -/
def initMemory (K : KernelImage) (m : NodeLinks) : Except Halt BuddyAllocator :=
  buddyInit m (paUp K.kernelEnd) (memoryEnd - paUp K.kernelEnd)

/-- The free blocks start at pages. -/
def OnPages (L : FreeLists) : Prop := ∀ j < maxOrder, ∀ a ∈ L j, a.toNat % 2 ^ 21 = 0

theorem two_pow_21_dvd (i : Nat) : 2 ^ 21 ∣ 2 ^ (i + pageShift) :=
  pow_dvd_pow 2 (by unfold pageShift; omega)

/-- The upper half of a block. -/
theorem add_blockSize_mod {i : Nat} (hi : i < maxOrder) {a : U64} (ha : a.toNat % 2 ^ 21 = 0) :
    (a + blockSize i).toNat % 2 ^ 21 = 0 := by
  have hdvd := two_pow_21_dvd i
  rw [BitVec.toNat_add, blockSize_toNat hi]
  omega

/-- The buddy of a block. -/
theorem buddyOf_mod {i : Nat} (hi : i < maxOrder) (hstart : start.toNat % 2 ^ 21 = 0)
    (hv : v.toNat % 2 ^ 21 = 0) : (buddyOf start v i).toNat % 2 ^ 21 = 0 := by
  have hdvd := two_pow_21_dvd i
  have hoff : (v - start).toNat % 2 ^ 21 = 0 := by
    have hlt := start.isLt
    rw [BitVec.toNat_sub]
    omega
  have hflip : (buddyOf start v i - start).toNat % 2 ^ 21 = 0 := by
    rw [buddyOf_sub start v hi, flip_two_pow]
    split <;> omega
  have hsum : (buddyOf start v i).toNat = (buddyOf start v i - start + start).toNat := by
    rw [BitVec.sub_add_cancel]
  rw [hsum, BitVec.toNat_add]
  omega

namespace OnPages

theorem drop (hL : OnPages L) (i : Nat) (a : U64) : OnPages (L.drop i a) := by
  intro j hj c hc
  rw [FreeLists.drop_apply] at hc
  split at hc
  · rename_i hji
    exact hL j hj c (hji ▸ List.mem_of_mem_erase hc)
  · exact hL j hj c hc

theorem push {a : U64} (hL : OnPages L) (i : Nat) (ha : a.toNat % 2 ^ 21 = 0) :
    OnPages (L.push i a) := by
  intro j hj c hc
  rw [FreeLists.push_apply] at hc
  split at hc
  · rename_i hji
    rcases List.mem_cons.mp hc with rfl | hc
    · exact ha
    · exact hL j hj c (hji ▸ hc)
  · exact hL j hj c hc

theorem split {a : U64} (hL : OnPages L) (ha : a.toNat % 2 ^ 21 = 0) (j : Nat) :
    OnPages (L.split a 0 j) := by
  intro n hn b hb
  rw [FreeLists.split_apply] at hb
  split at hb
  · rcases List.mem_cons.mp hb with rfl | hb
    · exact add_blockSize_mod hn ha
    · exact hL n hn b hb
  · exact hL n hn b hb

theorem freed (hL : OnPages L) (hstart : start.toNat % 2 ^ 21 = 0) (hv : v.toNat % 2 ^ 21 = 0) :
    OnPages (L.freed start v 0) := by
  have hbuddy := buddyOf_mod (i := 0) (by decide) hstart hv
  unfold FreeLists.freed
  simp only
  split
  · refine (hL.drop 0 _).push 0 ?_
    split <;> assumption
  · exact hL

theorem same (hL : OnPages L) (h : L.Same L') : OnPages L' :=
  fun j hj a ha => hL j hj a ((h j).mem_iff.mp ha)

end OnPages

/-- **`kalloc`** returns `NULL` or a page, and leaves pages on the lists. -/
theorem kalloc_pages {a : BuddyAllocator} (h : Represents start size a.links L held) (hL : OnPages L) :
    kalloc a = .ok (0, a) ∨ ∃ b a' L', kalloc a = .ok (b, a') ∧ a'.startAddr = a.startAddr ∧
      b.toNat % 2 ^ 21 = 0 ∧ OnPages L' ∧
      Represents start size a'.links L' (if b = 0 then held else pageBlock b :: held) := by
  unfold kalloc buddyAlloc
  rcases allocLoop_spec h.rings (le_refl 0) (show 0 + (maxOrder - 0) = maxOrder by decide) with
    ⟨hnone, -⟩ | ⟨j, b, rest, hij, hj, -, hLj, heq⟩
  · rw [hnone]
    exact Or.inl rfl
  · have hmem : b ∈ L j := hLj ▸ List.mem_cons_self
    have hb := hL j hj b hmem
    obtain ⟨hrep, -⟩ := splitBlock_spec hij hj (h.take hj hmem)
    have hL' := (hL.drop j b).split hb j
    rw [heq]
    generalize splitBlock (listDel a.links (.block b)) b 0 j = m' at hrep ⊢
    generalize (L.drop j b).split b 0 j = L' at hrep hL'
    by_cases hzero : b = 0
    · subst hzero
      exact Or.inr ⟨0, { a with links := m' }, L', rfl, rfl, hb, hL', by simpa using hrep.forget⟩
    · refine Or.inr ⟨b, { a with links := memsetPage m' b }, L', ?_, rfl, hb, hL', ?_⟩
      · rw [ok_bind]
        exact if_neg hzero
      · rw [if_neg hzero]
        exact Represents.memsetPage hrep

-- ---------------------------------------------------------------------------
-- The region
-- ---------------------------------------------------------------------------

/-- The kernel ends at a place in the memory. -/
theorem paUp_toNat (hend : K.kernelEnd ≤ memoryEnd) : (paUp K.kernelEnd).toNat % 2 ^ 21 = 0 ∧
    K.kernelEnd.toNat ≤ (paUp K.kernelEnd).toNat ∧ (paUp K.kernelEnd).toNat ≤ memoryEnd.toNat := by
  rw [BitVec.le_def, memoryEnd_toNat] at hend
  have hsum : (K.kernelEnd + pageSize - 1).toNat = K.kernelEnd.toNat + 2 ^ 21 - 1 := by
    unfold pageSize
    bv_omega
  have hup : (paUp K.kernelEnd).toNat = (K.kernelEnd.toNat + 2 ^ 21 - 1) / 2 ^ 21 * 2 ^ 21 := by
    rw [paUp, BitVec.toNat_shiftLeft, BitVec.toNat_ushiftRight, hsum, pageShift,
      Nat.shiftRight_eq_div_pow, Nat.shiftLeft_eq, Nat.mod_eq_of_lt (by omega)]
  rw [hup, memoryEnd_toNat]
  omega

/-- A page of the region is a frame. -/
theorem Represents.isFrame (hend : K.kernelEnd ≤ memoryEnd) (hf : f.toNat % 2 ^ 21 = 0)
    (h : Represents (paUp K.kernelEnd) (memoryEnd - paUp K.kernelEnd) m L (pageBlock f :: held)) :
    IsFrame K f := by
  obtain ⟨-, hstart, hstop⟩ := paUp_toNat hend
  have hin : (f - paUp K.kernelEnd).toNat + 2 ^ 21 ≤ (memoryEnd - paUp K.kernelEnd).toNat :=
    h.carved.inside (pageBlock f) (List.mem_append_right _ List.mem_cons_self)
  generalize paUp K.kernelEnd = start at hstart hstop hin
  have hsize : (memoryEnd - start).toNat = memoryEnd.toNat - start.toNat :=
    BitVec.toNat_sub_of_le (BitVec.le_def.mpr hstop)
  rw [hsize, BitVec.toNat_sub] at hin
  have hlt := f.isLt
  have hmem := memoryEnd_toNat
  refine ⟨hf, ?_, ?_⟩ <;> omega

/-- The allocator after `init_memory` and some calls: its lists and the pages of its clients make up
the region behind the kernel, and these pages are frames. -/
structure AllocInv (K : KernelImage) (s : AllocState) : Prop where
  start : s.allocator.startAddr = paUp K.kernelEnd
  lists : ∃ L, OnPages L ∧ Represents (paUp K.kernelEnd) (memoryEnd - paUp K.kernelEnd)
    s.allocator.links L (s.live.map pageBlock)
  frames : ∀ f ∈ s.live, IsFrame K f

/-- **`init_memory`** returns. -/
theorem initMemory_inv (hend : K.kernelEnd ≤ memoryEnd) (m : NodeLinks) :
    ∃ a, initMemory K m = .ok a ∧ AllocInv K ⟨a, []⟩ := by
  obtain ⟨hpage, -, -⟩ := paUp_toNat hend
  have hs : paUp K.kernelEnd % pageSize = 0 := by
    rw [← BitVec.toNat_inj, BitVec.toNat_umod]
    exact hpage
  obtain ⟨a, L, hinit, hstart, hrep, -, haligned, -⟩ :=
    @buddyInit_tiles (paUp K.kernelEnd) (memoryEnd - paUp K.kernelEnd) m hs
  refine ⟨a, hinit, hstart, ⟨L, fun j hj b hb => ?_, hrep⟩, fun f hf => absurd hf List.not_mem_nil⟩
  have hblock := haligned ⟨b, j⟩ (FreeLists.mem_blocks.mpr ⟨hj, hb⟩)
  have hdvd := two_pow_21_dvd j
  unfold Block.Aligned Block.bytes at hblock
  exact Nat.mod_eq_zero_of_dvd (hdvd.trans (Nat.dvd_of_mod_eq_zero hblock))

namespace AllocInv

/-- A call of `kalloc`: nothing, or a frame that is not allocated. -/
theorem kalloc (hend : K.kernelEnd ≤ memoryEnd) (hI : AllocInv K s)
    (hstep : AllocStep K.kernelEnd s .kalloc t) :
    AllocInv K t ∧ (t.live = s.live ∨ ∃ f, IsFrame K f ∧ f ∉ s.live ∧ t.live = f :: s.live) := by
  obtain ⟨hstart, ⟨L, hL, hrep⟩, hframes⟩ := hI
  obtain ⟨b, a, hk, rfl⟩ := hstep
  rcases kalloc_pages hrep hL with hnone | ⟨b', a', L', hok, hstart', hb, hL', hrep'⟩
  · rw [hnone] at hk
    cases hk
    exact ⟨⟨hstart, ⟨L, hL, hrep⟩, hframes⟩, Or.inl rfl⟩
  · obtain ⟨rfl, rfl⟩ := Prod.mk.inj (Except.ok.inj (hok.symm.trans hk))
    by_cases hzero : b' = 0
    · rw [if_pos hzero] at hrep' ⊢
      exact ⟨⟨hstart'.trans hstart, ⟨L', hL', hrep'⟩, hframes⟩, Or.inl rfl⟩
    · rw [if_neg hzero] at hrep' ⊢
      have hframe := hrep'.isFrame hend hb
      refine ⟨⟨hstart'.trans hstart, ⟨L', hL', hrep'⟩, fun f hf => ?_⟩, Or.inr ⟨b', hframe, ?_, rfl⟩⟩
      · exact (List.mem_cons.mp hf).elim (fun he => he ▸ hframe) (hframes f)
      · intro hlive
        have hmem : pageBlock b' ∈ L'.blocks ++ s.live.map pageBlock :=
          List.mem_append_right _ (List.mem_map_of_mem hlive)
        exact (hrep'.carved.perm List.perm_middle).head_addr_ne hmem rfl

theorem kalloc_returns (hI : AllocInv K s) : ∃ t, AllocStep K.kernelEnd s .kalloc t := by
  obtain ⟨-, ⟨L, hL, hrep⟩, -⟩ := hI
  rcases kalloc_pages hrep hL with hnone | ⟨b, a, L', hok, -⟩
  · exact ⟨_, 0, s.allocator, hnone, rfl⟩
  · exact ⟨_, b, a, hok, rfl⟩

/-- `kfree` makes the same checks in the allocator as in the heap. -/
theorem kfree_returns (hI : AllocInv K s) (hv : v ∈ s.live) (hsafe : NoDoubleInsert s (.kfree v)) :
    ∃ t, AllocStep K.kernelEnd s (.kfree v) t := by
  obtain ⟨hstart, ⟨L, hL, hrep⟩, hframes⟩ := hI
  have hheld := represents_live hv hrep
  rw [← hstart] at hheld
  obtain ⟨a, L', hrun, -⟩ := buddyFree_lists (by decide) hheld hsafe
  have hheap := Heap.kfree_eq (h := ⟨fun _ => 0, [v], 0⟩) (hframes v hv) List.mem_cons_self
  unfold Heap.kfree at hheap
  obtain ⟨_, hpage, hheap⟩ := bind_eq_ok.mp hheap
  obtain ⟨_, hbehind, hheap⟩ := bind_eq_ok.mp hheap
  obtain ⟨_, hbelow, -⟩ := bind_eq_ok.mp hheap
  refine ⟨_, hv, a, ?_, rfl⟩
  unfold TinyMultiCore.kfree
  exact bind_eq_ok.mpr ⟨_, hpage, bind_eq_ok.mpr ⟨_, hbehind, bind_eq_ok.mpr ⟨_, hbelow, hrun⟩⟩⟩

/-- A call of `kfree`, of an allocated page. -/
theorem kfree (hend : K.kernelEnd ≤ memoryEnd) (hI : AllocInv K s)
    (hstep : AllocStep K.kernelEnd s (.kfree v) t) (hsafe : NoDoubleInsert s (.kfree v)) :
    AllocInv K t ∧ v ∈ s.live ∧ t.live = s.live.erase v := by
  obtain ⟨hpage, -, -⟩ := paUp_toNat hend
  obtain ⟨hstart, ⟨L, hL, hrep⟩, hframes⟩ := hI
  obtain ⟨hv, a, hk, rfl⟩ := hstep
  have hfree := kfree_eq_ok hk
  have hheld := represents_live hv hrep
  rw [← hstart] at hheld
  obtain ⟨a', L', hrun, hstart', hrep', hsame⟩ := buddyFree_lists (by decide) hheld hsafe
  rw [hfree] at hrun
  cases hrun
  rw [hstart] at hrep' hsame
  refine ⟨⟨hstart'.trans hstart, ⟨L', (hL.freed hpage (hframes v hv).1).same hsame, hrep'⟩, ?_⟩, hv, rfl⟩
  exact fun f hf => hframes f (List.mem_of_mem_erase hf)

end AllocInv

-- ---------------------------------------------------------------------------
-- Sources of frames
-- ---------------------------------------------------------------------------

/-- A call, as the rest of the kernel knows it. -/
def HeapStep (src : FrameSource K) (h : Heap) : AllocOp → Heap → Prop
  | .kalloc, h' => h' = (h.kalloc src).2
  | .kfree v, h' => h.kfree K v = .ok h'

/-- Memory is always full. -/
def FrameSource.full (K : KernelImage) : FrameSource K where
  pick _ _ := none
  fresh he := nomatch he

/-- The source with another answer to the call number `n`, with the frames `l` in use. -/
def FrameSource.answer (src : FrameSource K) (n : Nat) (l : List U64) (o : Option U64)
    (ho : ∀ f, o = some f → IsFrame K f ∧ f ∉ l) : FrameSource K where
  pick k l' := if k = n ∧ l' = l then o else src.pick k l'
  fresh he := by
    split at he
    · rename_i hkl
      rw [hkl.2]
      exact ho _ he
    · exact src.fresh he

theorem Heap.kalloc_calls (src : FrameSource K) (h : Heap) : (h.kalloc src).2.calls = h.calls + 1 := by
  rcases h.kalloc_cases src with ⟨-, hk⟩ | ⟨f, -, hk, -, -⟩
  · rw [hk]
  · rw [hk]
    rfl

theorem Heap.kfree_calls (hok : h.kfree K v = .ok h') : h'.calls = h.calls := by
  rw [(Heap.kfree_spec hok).2]

/-- The calls of `kalloc` are counted. -/
theorem heapRun_calls (hrun : Run (HeapStep src) h₀ ops h) :
    h.calls = h₀.calls + ops.count .kalloc := by
  induction hrun with
  | nil => rfl
  | @snoc t u as op _ hstep ih =>
    rw [List.count_append]
    cases op with
    | kalloc =>
      rw [show u = (t.kalloc src).2 from hstep, Heap.kalloc_calls, ih]
      rfl
    | kfree v =>
      rw [Heap.kfree_calls hstep, ih]
      rfl

/-- Another answer to a later call makes no difference. -/
theorem heapRun_answer {n : Nat} {l : List U64} {o : Option U64}
    (ho : ∀ f, o = some f → IsFrame K f ∧ f ∉ l) (hrun : Run (HeapStep src) h₀ ops h)
    (hcalls : h.calls ≤ n) : Run (HeapStep (src.answer n l o ho)) h₀ ops h := by
  induction hrun with
  | nil => exact .nil
  | @snoc t u as op _ hstep ih =>
    cases op with
    | kalloc =>
      have hu : u = (t.kalloc src).2 := hstep
      have hlt : t.calls < n := by
        rw [hu, Heap.kalloc_calls] at hcalls
        exact hcalls
      refine (ih hlt.le).snoc ?_
      have hpick : (src.answer n l o ho).pick t.calls t.inUse = src.pick t.calls t.inUse :=
        if_neg fun hkl => hlt.ne hkl.1
      show u = (t.kalloc (src.answer n l o ho)).2
      rw [hu, Heap.kalloc, Heap.kalloc, hpick]
    | kfree v =>
      rw [Heap.kfree_calls hstep] at hcalls
      exact (ih hcalls).snoc hstep

/-- What the source answers now. -/
theorem heapStep_answer (src : FrameSource K) (h : Heap) {o : Option U64}
    (ho : ∀ f, o = some f → IsFrame K f ∧ f ∉ h.inUse) : ∃ h',
    HeapStep (src.answer h.calls h.inUse o ho) h .kalloc h' ∧
      h'.inUse = o.toList ++ h.inUse := by
  refine ⟨_, rfl, ?_⟩
  have hpick : (src.answer h.calls h.inUse o ho).pick h.calls h.inUse = o := if_pos ⟨rfl, rfl⟩
  rw [Heap.kalloc, hpick]
  cases o with
  | none => rfl
  | some f => rfl

-- ---------------------------------------------------------------------------
-- Runs
-- ---------------------------------------------------------------------------

/-- One source answers as the allocator does, in the run and in every part of it from the start. -/
def Stands (src : FrameSource K) (s₀ : AllocState) (h₀ : Heap) (ops : List AllocOp) : Prop :=
  ∀ pre t, pre <+: ops → Run (AllocStep K.kernelEnd) s₀ pre t →
    ∃ h, Run (HeapStep src) h₀ pre h ∧ h.inUse = t.live

/-- A longer run, with the same answers. -/
theorem Stands.snoc {s₀ : AllocState} (hst : Stands src s₀ h₀ ops)
    (hrun : Run (AllocStep K.kernelEnd) s₀ (ops ++ [op]) s)
    (hlast : ∃ h, Run (HeapStep src) h₀ (ops ++ [op]) h ∧ h.inUse = s.live) :
    Stands src s₀ h₀ (ops ++ [op]) := by
  intro pre t hpre hpt
  rcases List.prefix_concat_iff.mp hpre with rfl | hpre
  · obtain rfl : t = s := hpt.unique allocStep_unique hrun
    exact hlast
  · exact hst pre t hpre hpt

/-- Another answer to a call behind the run. -/
theorem Stands.answer {s₀ : AllocState} {n : Nat} {l : List U64} {o : Option U64}
    (ho : ∀ f, o = some f → IsFrame K f ∧ f ∉ l) (hst : Stands src s₀ h₀ ops)
    (hn : h₀.calls + ops.count .kalloc ≤ n) : Stands (src.answer n l o ho) s₀ h₀ ops := by
  intro pre t hpre hpt
  obtain ⟨h, hrun, huse⟩ := hst pre t hpre hpt
  refine ⟨h, heapRun_answer ho hrun ?_, huse⟩
  have hcount : pre.count .kalloc ≤ ops.count .kalloc := hpre.sublist.count_le _
  rw [heapRun_calls hrun]
  omega

/-- **The allocator stands for a source**: a step lemma for each call, by induction on the run. -/
theorem exists_stands {s₀ : AllocState} (hend : K.kernelEnd ≤ memoryEnd) (hI : AllocInv K s₀)
    (huse : h₀.inUse = s₀.live) (hrun : Run (AllocStep K.kernelEnd) s₀ ops s)
    (hsafe : EveryStep (AllocStep K.kernelEnd) s₀ ops NoDoubleInsert) :
    AllocInv K s ∧ ∃ src : FrameSource K, Stands src s₀ h₀ ops := by
  induction hrun with
  | nil =>
    refine ⟨hI, .full K, fun pre t hpre hpt => ?_⟩
    obtain rfl := List.prefix_nil.mp hpre
    rw [hpt.of_nil]
    exact ⟨h₀, .nil, huse⟩
  | @snoc s t ops op hr hstep ih =>
    obtain ⟨hs, src, hst⟩ := ih hsafe.prefix
    obtain ⟨h, hheap, hh⟩ := hst ops s (List.prefix_refl ops) hr
    have hrun' := hr.snoc hstep
    cases op with
    | kalloc =>
      obtain ⟨ht, hlive⟩ := hs.kalloc hend hstep
      obtain ⟨o, ho, hlive⟩ : ∃ o : Option U64, (∀ f, o = some f → IsFrame K f ∧ f ∉ h.inUse) ∧
          t.live = o.toList ++ s.live := by
        rcases hlive with hsame | ⟨f, hf, hfree, hnew⟩
        · exact ⟨none, nofun, hsame⟩
        · refine ⟨some f, fun g hg => ?_, hnew⟩
          cases hg
          exact ⟨hf, hh ▸ hfree⟩
      obtain ⟨h', hnext, hh'⟩ := heapStep_answer src h ho
      refine ⟨ht, _, (hst.answer ho (heapRun_calls hheap).ge).snoc hrun' ⟨h', ?_, ?_⟩⟩
      · exact (heapRun_answer ho hheap le_rfl).snoc hnext
      · rw [hh', hh, hlive]
    | kfree v =>
      obtain ⟨ht, hv, hlive⟩ := hs.kfree hend hstep (hsafe.last hr)
      have hframe := hs.frames v hv
      have hfree := Heap.kfree_eq hframe (hh ▸ hv)
      refine ⟨ht, src, hst.snoc hrun' ⟨_, hheap.snoc hfree, ?_⟩⟩
      rw [Heap.release_inUse, hh, hlive, List.diff_cons, List.diff_nil]

/-- **The buddy allocator is a frame source.** The kernel's end is in the memory. Then `init_memory`
returns, and after every run of `kalloc` and `kfree` calls, with only allocated pages freed and no
node linked in twice, the next such call returns, too. In the whole run the allocator answers as one
frame source does: a page that it returns is a frame which is not in use, and what is in use is the
same after each call. -/
theorem buddy_gives_frames (hend : K.kernelEnd ≤ memoryEnd) (m : NodeLinks) (mem : Memory) :
    ∃ a, initMemory K m = .ok a ∧ ∀ ops s, Run (AllocStep K.kernelEnd) ⟨a, []⟩ ops s →
      EveryStep (AllocStep K.kernelEnd) ⟨a, []⟩ ops NoDoubleInsert →
      (∃ src : FrameSource K, Stands src ⟨a, []⟩ ⟨mem, [], 0⟩ ops) ∧
      (∃ t, AllocStep K.kernelEnd s .kalloc t) ∧
      ∀ v ∈ s.live, NoDoubleInsert s (.kfree v) → ∃ t, AllocStep K.kernelEnd s (.kfree v) t := by
  obtain ⟨a, hinit, hI⟩ := initMemory_inv hend m
  refine ⟨a, hinit, fun ops s hrun hsafe => ?_⟩
  have huse : (⟨mem, [], 0⟩ : Heap).inUse = (⟨a, []⟩ : AllocState).live := rfl
  obtain ⟨hs, hstands⟩ := exists_stands hend hI huse hrun hsafe
  exact ⟨hstands, hs.kalloc_returns, fun v hv hfree => hs.kfree_returns hv hfree⟩

/-- Two pages are allocated and the second one is freed: its buddy is the first one. -/
theorem two_pages_stand : ∃ a s, initMemory smallImage nullLinks = .ok a ∧
    Run (AllocStep smallImage.kernelEnd) ⟨a, []⟩
      [.kalloc, .kalloc, .kfree 0xffff000000400000] s ∧
    s.live = [0xffff000000200000] ∧
    ∃ src : FrameSource smallImage, Stands src ⟨a, []⟩ ⟨fun _ => 0, [], 0⟩
      [.kalloc, .kalloc, .kfree 0xffff000000400000] := by
  obtain ⟨a, s, hinit, hrun, hlive⟩ := liveAfter_run (show
    liveAfter smallImage.kernelEnd nullLinks (paUp smallImage.kernelEnd)
      (memoryEnd - paUp smallImage.kernelEnd) [.kalloc, .kalloc, .kfree 0xffff000000400000] =
      some [0xffff000000200000] by decide +kernel)
  have hinit' : initMemory smallImage nullLinks = .ok a := hinit
  have hbuddy : (initMemory smallImage nullLinks).toOption.bind (fun a =>
      (callAll smallImage.kernelEnd ⟨a, []⟩ [.kalloc, .kalloc]).map
        fun s => doubleInserts s.allocator 0xffff000000400000 0) = some false := by
    decide +kernel
  rw [hinit'] at hbuddy
  obtain ⟨t, ht, hfree⟩ := Option.map_eq_some_iff.mp hbuddy
  have hsafe : EveryStep (AllocStep smallImage.kernelEnd) ⟨a, []⟩
      [.kalloc, .kalloc, .kfree 0xffff000000400000] NoDoubleInsert := by
    refine .cons trivial fun u hu => .cons trivial fun v hv => .cons ?_ fun _ _ => .nil
    obtain rfl : v = t := (Run.cons hu (.cons hv .nil)).unique allocStep_unique (callAll_run ht)
    exact hfree
  obtain ⟨a', hinit'', hruns⟩ := buddy_gives_frames (K := smallImage) (by decide) nullLinks fun _ => 0
  obtain rfl : a = a' := Except.ok.inj (hinit'.symm.trans hinit'')
  exact ⟨a, s, hinit', hrun, hlive, (hruns _ s hrun hsafe).1⟩

end TinyMultiCore
