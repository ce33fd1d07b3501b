import TinyMultiCore.Process.SpaceRuns
import TinyMultiCore.Process.Swap

/-!
# Whom `fork` clones

`fork` copies the process that core 0 runs, whatever core it is called on. What a
process is to its program is the `Program` of it: the user page, the open files and the
trap frame.

* `SpacesInv.sysFork_program` — the child has the program of the process on core 0, with
  `x0` zero, and the caller keeps what it has;
* `fork_clones_caller_iff` — so it is a clone of the caller exactly when the process on
  core 0 has the program of the caller.
-/

namespace TinyMultiCore

open ByteMemory RadixTree TransitionSystem

variable {K : KernelImage} {src : FrameSource K} {image : Memory} {h h' : Heap} {k k' : Kernel}
  {c : Core} {r caller child current : ProcRef} {p : Process} {f map v attr stack pageMap : U64}
  {m m' : Memory} {s : System} {t t' : FileTables} {file : FileSlots} {n : Nat}

-- ---------------------------------------------------------------------------
-- Programs
-- ---------------------------------------------------------------------------

/-- What the program of a process has: the 2MB at the user base, the open files, and the
registers it goes on with. -/
@[ext]
structure Program where
  page : BitVec 21 → BitVec 8
  file : FileSlots
  frame : TrapFrame

/-- The program of a process that has a page. -/
def Kernel.program (k : Kernel) (r : ProcRef) : Option Program :=
  (walk k.heap.mem (k.table r).pageMap userBase).map fun b => {
    page i := k.heap.mem (pageOf b + i.setWidth 64)
    file := (k.table r).file
    frame := readTrapFrame k.heap.mem (k.table r).tf }

/-- The clone of a program: `fork` returns zero to it. -/
def Program.forked (p : Program) : Program := { p with frame := p.frame.forked }

/-- How many of the first `n` slots lead to the FCB `f`. -/
def fcbSlots (t : FileTables) (file : FileSlots) (n f : Nat) : Nat :=
  ((Finset.range n).filter fun fd => ((file fd).bind fun d => (t.desc d).fcb) = some f).card

/-- The new process `child` is a clone of `source`. -/
structure CloneOf (k : Kernel) (source : ProcRef) (k' : Kernel) (child : ProcRef) : Prop where
  program : k'.program child = (k.program source).map Program.forked
  /-- Its page is a fresh frame. -/
  page : ∃ b, walk k'.heap.mem (k'.table child).pageMap userBase = some b ∧ pageOf b ∉ k.heap.inUse
  /-- Every slot counts for its descriptor and for its FCB. -/
  descs : ∀ d, (k'.files.desc d).count =
    (k.files.desc d).count + slotRefs (k.table source).file numFiles d
  fcbs : ∀ f, (k'.files.fcb f).count =
    (k.files.fcb f).count + fcbSlots k.files (k.table source).file numFiles f

/-- The process `caller` has the files, the page map and the memory it had, and gets the
number of the child. -/
structure GoesOn (k : Kernel) (caller : ProcRef) (k' : Kernel) (child : ProcRef) : Prop where
  record : k'.table caller = k.table caller
  walks : ∀ va, walk k'.heap.mem (k.table caller).pageMap va =
    walk k.heap.mem (k.table caller).pageMap va
  memory : ∀ f, Maps k.heap.mem (k.table caller).pageMap f → SameBytes f k.heap.mem k'.heap.mem
  result : (readTrapFrame k'.heap.mem (k.table caller).tf).x 0 = (k'.table child).pid.signExtend 64

/-- A clone is one of every process that has the same program. -/
theorem CloneOf.congr {a b : ProcRef} (hC : CloneOf k a k' child) (ha : k.program a ≠ none)
    (heq : (k.program a).map Program.forked = (k.program b).map Program.forked) :
    CloneOf k b k' child := by
  obtain ⟨p, hp⟩ := Option.ne_none_iff_exists'.mp ha
  rw [hp, Option.map_some] at heq
  obtain ⟨q, hq, hsame⟩ := Option.map_eq_some_iff.mp heq.symm
  obtain ⟨w, -, rfl⟩ := Option.map_eq_some_iff.mp hp
  obtain ⟨w', -, rfl⟩ := Option.map_eq_some_iff.mp hq
  have hfile : (k.table b).file = (k.table a).file := congrArg Program.file hsame
  refine ⟨by rw [hC.program, hp, hq, Option.map_some, Option.map_some, hsame], hC.page, ?_, ?_⟩
  · rw [hfile]
    exact hC.descs
  · rw [hfile]
    exact hC.fcbs

-- ---------------------------------------------------------------------------
-- The counts
-- ---------------------------------------------------------------------------

theorem fcbSlots_succ (t : FileTables) (file : FileSlots) (n f : Nat) :
    fcbSlots t file (n + 1) f = fcbSlots t file n f +
      if ((file n).bind fun d => (t.desc d).fcb) = some f then 1 else 0 := by
  rw [fcbSlots, fcbSlots, Finset.card_filter, Finset.card_filter, Finset.sum_range_succ]

/-- One slot of the loop. -/
theorem shareFile_counts {d : Nat} (hok : shareFile t d = .ok t') :
    (∀ e, (t'.desc e).fcb = (t.desc e).fcb) ∧
    (∀ e, (t'.desc e).count = (t.desc e).count + if e = d then 1 else 0) ∧
    ∀ f, (t'.fcb f).count = (t.fcb f).count + if (t.desc d).fcb = some f then 1 else 0 := by
  unfold shareFile at hok
  obtain ⟨g, hg, hok⟩ := bind_eq_ok.mp hok
  cases hok
  have hg : (t.desc d).fcb = some g := by simpa [FileTables.setDesc] using deref_eq_ok.mp hg
  refine ⟨fun e => ?_, fun e => ?_, fun f => ?_⟩
  · by_cases he : e = d
    · subst he
      simp [FileTables.setDesc, FileTables.setFcb]
    · simp [FileTables.setDesc, FileTables.setFcb, he]
  · by_cases he : e = d
    · subst he
      simp [FileTables.setDesc, FileTables.setFcb]
    · simp [FileTables.setDesc, FileTables.setFcb, he]
  · by_cases hf : f = g
    · subst hf
      simp [FileTables.setDesc, FileTables.setFcb, hg]
    · have hne : g ≠ f := fun he => hf he.symm
      simp [FileTables.setDesc, FileTables.setFcb, hg, hf, hne]

/-- **The loop of `fork`** counts every slot. -/
theorem eachFile_share_counts (hok : eachFile shareFile file n t = .ok t') :
    (∀ e, (t'.desc e).fcb = (t.desc e).fcb) ∧
    (∀ e, (t'.desc e).count = (t.desc e).count + slotRefs file n e) ∧
    ∀ f, (t'.fcb f).count = (t.fcb f).count + fcbSlots t file n f := by
  induction n generalizing t' with
  | zero =>
    cases hok
    exact ⟨fun _ => rfl, fun _ => by simp, fun _ => by simp [fcbSlots]⟩
  | succ n ih =>
    obtain ⟨t₁, h₁, hok⟩ := bind_eq_ok.mp hok
    obtain ⟨hfcb, hdesc, hcount⟩ := ih h₁
    cases hslot : file n with
    | none =>
      rw [hslot] at hok
      cases hok
      refine ⟨hfcb, fun e => ?_, fun f => ?_⟩
      · rw [hdesc, slotRefs_succ, hslot, if_neg (by simp), Nat.add_zero]
      · rw [hcount, fcbSlots_succ, hslot, if_neg (by simp), Nat.add_zero]
    | some d =>
      rw [hslot] at hok
      obtain ⟨hfcb', hdesc', hcount'⟩ := shareFile_counts hok
      refine ⟨fun e => (hfcb' e).trans (hfcb e), fun e => ?_, fun f => ?_⟩
      · rw [hdesc', hdesc, slotRefs_succ, hslot]
        by_cases he : e = d
        · rw [if_pos he, if_pos (by rw [he])]
          omega
        · rw [if_neg he, if_neg fun hd => he (Option.some.inj hd).symm]
          omega
      · rw [hcount', hcount, fcbSlots_succ, hslot, hfcb d, Option.bind_some]
        by_cases hf : (t.desc d).fcb = some f
        · rw [if_pos hf, if_pos hf]
          omega
        · rw [if_neg hf, if_neg hf]
          omega

-- ---------------------------------------------------------------------------
-- The process on core 0
-- ---------------------------------------------------------------------------

/-- The page map of an idle process is no frame. -/
theorem IsFrame.ne_idleMap (hf : IsFrame K f) : f ≠ v2p K.pgdTtbr0 := by
  rintro rfl
  have hend := hf.2.1
  have hlt := K.pgd_lt
  rw [BitVec.lt_def] at hlt
  rw [v2p, BitVec.toNat_sub_of_le K.base_le] at hend
  omega

/-- The root of a walk is in use. -/
theorem findPudEntry_used {alloc : Bool} {x : U64 × Heap}
    (hok : findPudEntry src h map v alloc attr = .ok x) : map ∈ h.inUse := by
  obtain ⟨y, hpgd, -⟩ := bind_eq_ok.mp hok
  obtain ⟨e, hread, -⟩ := bind_eq_ok.mp hpgd
  unfold readEntry at hread
  split at hread
  · assumption
  · cases hread

/-- The place of a byte in its page. -/
theorem byte_place (a : U64) (i : BitVec 21) : (a + i.setWidth 64 - a).toNat = i.toNat := by
  rw [BitVec.add_comm, BitVec.add_sub_cancel, BitVec.toNat_setWidth,
    Nat.mod_eq_of_lt (lt_trans i.isLt (by decide))]

section

variable {page : U64}
  (hstack : src.pick h.calls h.inUse = some stack)
  (hmap : src.pick (h.calls + 1) (stack :: h.inUse) = some pageMap)
  (hpage : src.pick (newProcessHeap h stack pageMap).calls (newProcessHeap h stack pageMap).inUse =
    some page)
include hstack hmap hpage

/-- The three frames for the child are none of those in use. -/
theorem newFrames_outside (hf : IsFrame K f) (huse : f ∈ h.inUse) :
    SameBytes f h.mem ((newProcessHeap h stack pageMap).withFrame page).mem := by
  intro x hx
  obtain ⟨hstackF, hstackFree⟩ := src.fresh hstack
  obtain ⟨hmapF, hmapFree⟩ := src.fresh hmap
  obtain ⟨hpageF, hpageFree⟩ := src.fresh hpage
  have hpageFree : page ∉ pageMap :: stack :: h.inUse := hpageFree
  have h₁ : f ≠ stack := fun he => hstackFree (he ▸ huse)
  have h₂ : f ≠ pageMap := fun he => hmapFree (he ▸ List.mem_cons_of_mem _ huse)
  have h₃ : f ≠ page := fun he => hpageFree (he ▸ by simp [huse])
  calc ((newProcessHeap h stack pageMap).withFrame page).mem x
      = (newProcessHeap h stack pageMap).mem x := if_neg (Nat.not_lt.mpr (hf.outside hpageF h₃ hx))
    _ = h.mem x := newProcessHeap_outside hf hstackF hmapF h₁ h₂ hx

/-- The entry that `copy_uvm` reads is the one of the user page. -/
theorem source_entry {pd entry : U64} (hS : Space K h p)
    (hfind : findPudEntry src ((newProcessHeap h stack pageMap).withFrame page) p.pageMap userBase
      false 0 = .ok (pd, (newProcessHeap h stack pageMap).withFrame page))
    (hread : readEntry ((newProcessHeap h stack pageMap).withFrame page) pd (pmdIndex userBase) =
      .ok entry) : ∃ b, walk h.mem p.pageMap userBase = some b ∧ pageOf b = p2v (pteAddr entry) := by
  obtain ⟨b, hb⟩ := Option.ne_none_iff_exists'.mp hS.mapped
  -- the map of the source is still there
  obtain ⟨hS', -, hwalk⟩ := hS.transfer ((newProcessHeap h stack pageMap).withFrame page) (.refl p)
    (fun f hf => by simp [Heap.withFrame, newProcessHeap, (hS.owned hf).1]) fun q t hq =>
      newFrames_outside hstack hmap hpage (hS.owned (Or.inr (Or.inl ⟨q, hq⟩))).2
        (hS.owned (Or.inr (Or.inl ⟨q, hq⟩))).1
  rw [hb, walk_userBase] at hwalk
  obtain ⟨t, ht, hleaf⟩ := leaf_of_lookup hwalk
  obtain ⟨pd', hfind', hres⟩ := findPudEntry_lookup src 0 (v := userBase) hS'.map.forest
    List.mem_cons_self
  rw [hfind] at hfind'
  obtain rfl : pd = pd' := (Prod.mk.inj (Except.ok.inj hfind')).1
  rcases hres with ⟨-, hnone⟩ | ⟨-, hreach⟩
  · rw [ht] at hnone
    cases hnone
  · obtain rfl : t = pd := Option.some.inj (ht.symm.trans hreach)
    rw [readEntry_eq (hS'.map.forest.frames _ List.mem_cons_self _ t hreach).1] at hread
    cases hread
    refine ⟨b, hb, ?_⟩
    rw [pageOf, slotOf_eq_leaf hleaf]

end

/-- The memory of the child: its page has the bytes of the page of `current`, whatever is in
its stack, and the frames of the others are as before. -/
theorem copyUvm_child (hframes : ∀ f ∈ h.inUse, IsFrame K f) (hS : Space K h p)
    (hstack : src.pick h.calls h.inUse = some stack)
    (hmap : src.pick (h.calls + 1) (stack :: h.inUse) = some pageMap)
    (hcopy : copyUvm src (newProcessHeap h stack pageMap) pageMap p.pageMap (pageSize.setWidth 32) =
      .ok (true, h'))
    (hm : ∀ x, 2 ^ 21 ≤ (x - stack).toNat → m x = h'.mem x) :
    ∃ b b', walk h.mem p.pageMap userBase = some b ∧ walk m pageMap userBase = some b' ∧
      pageOf b' ∉ h.inUse ∧
      ∀ i : BitVec 21, m (pageOf b' + i.setWidth 64) = h.mem (pageOf b + i.setWidth 64) := by
  obtain ⟨page, pd, entry, hpage, hfind, hread, hmapped⟩ := copyUvm_eq hcopy
  obtain ⟨b, hb, hsrc⟩ := source_entry hstack hmap hpage hS hfind hread
  rw [← hsrc] at hmapped
  have hout : ∀ x, 2 ^ 21 ≤ (x - page).toNat →
      (copiedHeap ((newProcessHeap h stack pageMap).withFrame page) page (pageOf b)
        (pageSize.setWidth 32)).mem x = ((newProcessHeap h stack pageMap).withFrame page).mem x :=
    fun x hx => if_neg (Nat.not_lt.mpr hx)
  obtain ⟨hstackF, hstackFree⟩ := src.fresh hstack
  obtain ⟨hpageF, hpageFree⟩ := src.fresh hpage
  have hpageFree : page ∉ pageMap :: stack :: h.inUse := hpageFree
  obtain ⟨-, b', hb', rfl⟩ := newSpace_of_mapPage (p := { p with
      pageMap := pageMap, stack := stack, tf := topFrame stack }) hframes hstack hmap hpage hout
    hmapped (fun x _ hx => hm x hx) rfl rfl rfl
  refine ⟨b, b', hb, hb', fun hin => hpageFree (by simp [hin]), fun i => ?_⟩
  have hplace := byte_place (pageOf b') i
  have hin : (pageOf b' + i.setWidth 64 - pageOf b').toNat < 2 ^ 21 := hplace ▸ i.isLt
  have hne : pageOf b' ≠ stack := fun he => hpageFree (by simp [he])
  -- `map_page` writes to tables only
  obtain ⟨hP, hreached, -⟩ := mapPage_newProcess hmap hpage hout hmapped
  have hroot : ∀ q, reach (tables (copiedHeap ((newProcessHeap h stack pageMap).withFrame (pageOf b'))
      (pageOf b') (pageOf b) (pageSize.setWidth 32)).mem) pageMap q ≠ some (pageOf b') := by
    intro q hq
    rcases hreached q _ (hP.kept q _ hq) with he | hfree
    · exact hpageFree (he ▸ List.mem_cons_self)
    · exact hfree List.mem_cons_self
  -- the page that is copied is one of those in use
  obtain ⟨huse, hf⟩ := hS.owned (f := pageOf b)
    (Or.inr (Or.inr ⟨_, _, b, (walk_userBase ..).symm.trans hb, rfl⟩))
  calc m (pageOf b' + i.setWidth 64)
      = h'.mem (pageOf b' + i.setWidth 64) := hm _ (hpageF.outside hstackF hne hin)
    _ = (copiedHeap ((newProcessHeap h stack pageMap).withFrame (pageOf b')) (pageOf b') (pageOf b)
          (pageSize.setWidth 32)).mem (pageOf b' + i.setWidth 64) :=
        hP.outside _ List.mem_cons_self hpageF hroot _ hin
    _ = ((newProcessHeap h stack pageMap).withFrame (pageOf b')).mem (pageOf b + i.setWidth 64) := by
        refine (if_pos (lt_of_eq_of_lt hplace i.isLt)).trans ?_
        rw [hplace, BitVec.ofNat_toNat]
    _ = h.mem (pageOf b + i.setWidth 64) :=
        newFrames_outside hstack hmap hpage hf huse _ (by rw [byte_place]; exact i.isLt)

/-- What the kernel writes to a trap frame is in the stack. -/
theorem Space.write_tf (hS : Space K h p) (v : U64) (hf : IsFrame K f) (hne : f ≠ p.stack) :
    SameBytes f m (write64 m p.tf v) := by
  intro x hx
  have hout := topFrame_outside (hf.outside hS.frame hne hx)
  rw [hS.tf]
  exact write64_outside (by omega)

/-- The bytes of a trap frame are in the stack. -/
theorem topFrame_inside {x : U64} (hx : Range (topFrame stack) 288 x) :
    (x - stack).toNat < 2 ^ 21 := by
  by_contra hout
  exact absurd hx (Nat.not_lt.mpr (topFrame_outside (Nat.not_lt.mp hout)))

/-- Trap frames in a stack whose bytes are the same. -/
theorem readTrapFrame_of_stack (hsame : SameBytes stack m m') :
    readTrapFrame m' (topFrame stack) = readTrapFrame m (topFrame stack) :=
  readTrapFrame_of_agree fun x hx => hsame x (topFrame_inside hx)

/-- Core 0 does not fork from its idle process. -/
theorem SpacesInv.current_live (h : SpacesInv K k) (hcur : k.current 0 = some current)
    (hidle : current.2 = 0 → (k.table current).pageMap = v2p K.pgdTtbr0)
    (hstack : src.pick k.heap.calls k.heap.inUse = some stack)
    (hmap : src.pick (k.heap.calls + 1) (stack :: k.heap.inUse) = some pageMap)
    (hcopy : copyUvm src (newProcessHeap k.heap stack pageMap) pageMap (k.table current).pageMap
      (pageSize.setWidth 32) = .ok (true, h')) : k.Live current := by
  by_cases hslot : current.2 = 0
  · obtain ⟨page, pd, entry, hpage, hfind, -, -⟩ := copyUvm_eq hcopy
    have huse : v2p K.pgdTtbr0 ∈ page :: pageMap :: stack :: k.heap.inUse := by
      have := findPudEntry_used hfind
      rwa [hidle hslot] at this
    have hframe : ∀ f ∈ page :: pageMap :: stack :: k.heap.inUse, IsFrame K f := by
      simp only [List.forall_mem_cons]
      exact ⟨(src.fresh hpage).1, (src.fresh hmap).1, (src.fresh hstack).1, h.spaces.frames⟩
    exact absurd rfl (hframe _ huse).ne_idleMap
  · exact (h.loaded 0 current hcur hslot).1

variable (k') in
/-- The program of a process is in its own frames. -/
theorem Space.program_congr (hS : Space K k.heap (k.table r)) (htable : k'.table r = k.table r)
    (hsame : ∀ f, (k.table r).Owns k.heap.mem f → SameBytes f k.heap.mem k'.heap.mem) :
    k'.program r = k.program r ∧
      walk k'.heap.mem (k.table r).pageMap userBase = walk k.heap.mem (k.table r).pageMap userBase := by
  obtain ⟨-, -, hwalk⟩ := hS.transfer { k.heap with mem := k'.heap.mem } (.refl _)
    (fun f hf => (hS.owned hf).1) fun q t hq => hsame t (Or.inr (Or.inl ⟨q, hq⟩))
  obtain ⟨b, hb⟩ := Option.ne_none_iff_exists'.mp hS.mapped
  refine ⟨?_, hwalk⟩
  have hpage : ∀ i : BitVec 21, k'.heap.mem (pageOf b + i.setWidth 64) =
      k.heap.mem (pageOf b + i.setWidth 64) := fun i =>
    hsame (pageOf b) (Or.inr (Or.inr ⟨_, _, b, (walk_userBase ..).symm.trans hb, rfl⟩)) _
      (by rw [byte_place]; exact i.isLt)
  have hframe : readTrapFrame k'.heap.mem (k.table r).tf = readTrapFrame k.heap.mem (k.table r).tf := by
    rw [hS.tf]
    exact readTrapFrame_of_stack (hsame _ (Or.inl rfl))
  unfold Kernel.program
  rw [htable, hwalk, hb, Option.map_some, Option.map_some, hframe]
  simp only [hpage]

/-- **The child is a clone of the process on core 0.** -/
theorem SpacesInv.fork_clone (h : SpacesInv K k)
    (hidle : ∀ r, k.current 0 = some r → r.2 = 0 → (k.table r).pageMap = v2p K.pgdTtbr0)
    (hok : TinyMultiCore.fork src k = .ok (some child, k')) :
    ∃ current, k.current 0 = some current ∧ k.program current ≠ none ∧
      CloneOf k current k' child ∧ NewSpace K k.heap k'.heap (k'.table child) := by
  obtain ⟨current, r, stack, pageMap, heap, files, lists, hres, hcur, hfind, hstack, hmap, hcopy, hshare,
    -, rfl⟩ := fork_eq hok
  cases hres
  obtain ⟨-, hslot, hunused⟩ := findUnusedProcess_eq_some hfind
  have hnew := h.fork_newSpace (r := child) current hstack hmap hcopy
  -- the source is in another slot, and there as before
  have hne : current ≠ child := by
    rintro rfl
    exact (h.loaded 0 current hcur hslot).1.2 hunused
  have hsource : (newProcess k child stack pageMap).table current = k.table current := by
    simp [newProcess, Kernel.setProcess, hne]
  rw [hsource] at hcopy hshare
  have hlive := h.current_live hcur (hidle current hcur) hstack hmap hcopy
  have hS := h.spaces.space current hlive
  have htf : ((newProcess k child stack pageMap).table child).tf = topFrame stack := by
    simp [newProcess, Kernel.setProcess]
  set m := childMemory (newProcess k child stack pageMap) heap.mem child current with hm
  have hout : ∀ x, 2 ^ 21 ≤ (x - stack).toNat → m x = heap.mem x := fun x hx =>
    childMemory_outside htf hx
  obtain ⟨b, b', hb, hb', hfree, hbytes⟩ := copyUvm_child h.spaces.frames hS hstack hmap hcopy hout
  have hframe : readTrapFrame m (topFrame stack) =
      (readTrapFrame k.heap.mem (k.table current).tf).forked := by
    rw [hm, childMemory, htf, hsource, readTrapFrame_fork, hS.tf]
    refine congrArg _ (readTrapFrame_of_stack fun x hx => ?_)
    -- the stack of the source is not the one of the child
    have hstackF := (src.fresh hstack).1
    have hapart : (k.table current).stack ≠ stack := fun he => (src.fresh hstack).2 (he ▸ hS.used)
    exact (hout x (hS.frame.outside hstackF hapart hx)).symm.trans ((hnew.kept _ hS.used).2 x hx)
  obtain ⟨-, hdescs, hfcbs⟩ := eachFile_share_counts hshare
  -- the record of the child
  have hchild : ((newProcess k child stack pageMap).setProcess child
      (childProcess (newProcess k child stack pageMap) child current)).table child =
        childProcess (newProcess k child stack pageMap) child current := by
    simp [Kernel.setProcess]
  have hprocess : childProcess (newProcess k child stack pageMap) child current =
      { k.table child with
        stack, pid := k.pidNum, tf := topFrame stack, pageMap, file := (k.table current).file
        state := .ready } := by
    simp [Kernel.setProcess, childProcess, newProcess, hne]
  refine ⟨current, hcur, ?_, ⟨?_, ⟨b', ?_, hfree⟩, hdescs, hfcbs⟩, ?_⟩
  · rw [Kernel.program, hb]
    simp
  · unfold Kernel.program
    dsimp only
    rw [hchild, hprocess, hb', hb]
    simp only [Option.map_some, hbytes, hframe]
    rfl
  · dsimp only
    rw [hchild, hprocess]
    exact hb'
  · dsimp only
    rw [hchild]
    exact hnew

/-- **`fork` as a system call**: the caller goes on. -/
theorem SpacesInv.sysFork_program (h : SpacesInv K k) (hslot : caller.2 ≠ 0)
    (hcaller : k.current c = some caller)
    (hidle : ∀ r, k.current 0 = some r → r.2 = 0 → (k.table r).pageMap = v2p K.pgdTtbr0)
    (hok : TinyMultiCore.sysFork src k c = .ok (some child, k')) :
    ∃ current, k.current 0 = some current ∧ k.program current ≠ none ∧
      CloneOf k current k' child ∧ GoesOn k caller k' child := by
  obtain ⟨caller', k₁, m₂, hcaller', hfork, hm₂, rfl⟩ := sysFork_eq hok
  obtain rfl : caller = caller' := Option.some.inj (hcaller.symm.trans hcaller')
  have hlive := (h.loaded c caller hcaller hslot).1
  have hS := h.spaces.space caller hlive
  have hrecord := ((h.fork hfork).2 caller hlive).1
  obtain ⟨current, hcur, hsome, hclone, hnew⟩ := h.fork_clone hidle hfork
  -- the write to the trap frame of the caller stays in its stack
  have hwrite : ∀ f, IsFrame K f → f ≠ (k.table caller).stack → SameBytes f k₁.heap.mem m₂ := by
    intro f hf hne
    rw [hm₂, hrecord]
    exact hS.write_tf _ hf hne
  obtain ⟨hprogram, hwalk⟩ := hnew.space.program_congr
    { k₁ with heap := { k₁.heap with mem := m₂ } } rfl fun f hf =>
      hwrite f (hnew.space.owned hf).2 fun he => hnew.fresh f hf (he ▸ hS.used)
  have hcaller : ∀ f, OwnedBy k.heap.mem (k.table caller).pageMap f → SameBytes f k.heap.mem m₂ := by
    intro f hf x hx
    obtain ⟨huse, hframe⟩ := hS.map.frame hf
    rw [hwrite f hframe (fun he => hS.apart (he ▸ hf)) x hx]
    exact (hnew.kept f huse).2 x hx
  refine ⟨current, hcur, hsome, ⟨hprogram.trans hclone.program, ?_, hclone.descs, hclone.fcbs⟩,
    hrecord, fun va => ?_, fun f hf => hcaller f (Or.inr hf), ?_⟩
  · obtain ⟨b, hb, hfree⟩ := hclone.page
    exact ⟨b, hwalk.trans hb, hfree⟩
  · obtain ⟨-, -, hwalks⟩ := hS.map.transfer { k.heap with mem := m₂ }
      (fun f hf => (hS.map.frame hf).1) fun q t hq => hcaller t (Or.inl ⟨q, hq⟩)
    unfold walk
    rw [hwalks _ List.mem_cons_self]
  · rw [hm₂, ← hrecord]
    exact (congrArg (read64 _) (BitVec.add_zero _)).trans (read64_write64 _)

-- ---------------------------------------------------------------------------
-- Runs
-- ---------------------------------------------------------------------------

/-- **When `fork` clones its caller.** In every state that the four cores reach, when the
programs of `init_process` fit into their page: a `fork` of the process `caller` on core
`c` that succeeds makes a clone of it, and `caller` goes on with what it has, exactly when
the process that core 0 runs has the same program but for `x0`. -/
theorem fork_clones_caller_iff {mem : Memory} {ops : List Op} {s₀ : System}
    (hboot : boot src image mem = .ok s₀) (hrun : Run (System.Step src image) s₀ ops s)
    (hfits : ProgramsFit image) (hcall : s.RunsUser c caller)
    (hok : sysFork src s.kernel c = .ok (some child, k')) :
    CloneOf s.kernel caller k' child ∧ GoesOn s.kernel caller k' child ↔
      ∃ current, s.kernel.current 0 = some current ∧
        (s.kernel.program current).map Program.forked =
          (s.kernel.program caller).map Program.forked := by
  obtain ⟨v, hs, -⟩ := run_inv hboot hrun
  obtain ⟨hphase, hcaller, hslot⟩ := hcall
  have hbooted : s.phase 0 ≠ .booting := hs.boot_ne (by rw [hphase]; decide)
  have hidle : ∀ r, s.kernel.current 0 = some r → r.2 = 0 →
      (s.kernel.table r).pageMap = v2p K.pgdTtbr0 := by
    intro r hr h0
    obtain rfl : r = (0, 0) := Prod.ext (hs.sched.current_core 0 r hr) h0
    exact (run_mapsInv hboot hrun).idle hbooted 0
  obtain ⟨current, hcur, hsome, hclone, hgoes⟩ :=
    (run_spacesInv hboot hrun hfits).sysFork_program hslot hcaller hidle hok
  constructor
  · rintro ⟨hcaller, -⟩
    exact ⟨current, hcur, hclone.program.symm.trans hcaller.program⟩
  · rintro ⟨current', hcur', hsame⟩
    obtain rfl : current = current' := Option.some.inj (hcur.symm.trans hcur')
    exact ⟨hclone.congr hsome hsame, hgoes⟩

/-- The first program on core 0 is that process itself. -/
theorem fork_on_core_0_clones : ∃ s k',
    runFrom smallSource smallDisk (fun _ => 0) [.init 0, .yield 0] = some s ∧
    sysFork smallSource s.kernel 0 = .ok (some (0, 3), k') ∧
    CloneOf s.kernel (0, 1) k' (0, 3) ∧ GoesOn s.kernel (0, 1) k' (0, 3) := by
  have hstate : (runFrom smallSource smallDisk (fun _ => 0) [.init 0, .yield 0]).map (fun s =>
      (s.userOn 0, (sysFork smallSource s.kernel 0).toOption.map Prod.fst)) =
      some (some (0, 1), some (some (0, 3))) := by
    decide +kernel
  obtain ⟨s, hs, hstate⟩ := Option.map_eq_some_iff.mp hstate
  obtain ⟨huser, hfork⟩ := Prod.mk.inj hstate
  obtain ⟨⟨child, k'⟩, hfork, rfl⟩ := Option.map_eq_some_iff.mp hfork
  rw [toOption_eq_some] at hfork
  obtain ⟨s₀, hboot, hrun⟩ := run_of_runFrom _ _ hs
  have hcall := System.userOn_eq_some huser
  exact ⟨s, k', hs, hfork, (fork_clones_caller_iff hboot hrun smallDisk_programsFit hcall hfork).mpr
    ⟨(0, 1), hcall.2.1, rfl⟩⟩

/-- Core 0 runs `INIT.BIN` when `TEST4.BIN` on core 1 calls `fork`: the child has the first
byte of `INIT.BIN`. -/
theorem fork_on_core_1_clones_another : ∃ s₀ s k',
    boot smallSource smallDisk (fun _ => 0) = .ok s₀ ∧
    Run (System.Step smallSource smallDisk) s₀ [.init 0, .init 1, .yield 0, .yield 0, .yield 1] s ∧
    s.RunsUser 1 (1, 1) ∧ sysFork smallSource s.kernel 1 = .ok (some (0, 3), k') ∧
    ¬ CloneOf s.kernel (1, 1) k' (0, 3) := by
  have hcall : (runFrom smallSource smallDisk (fun _ => 0)
      [.init 0, .init 1, .yield 0, .yield 0, .yield 1]).map (fun s =>
        (s.userOn 1, (s.kernel.program (1, 1)).map (·.page 0))) =
      some (some (1, 1), some 0x54) := by
    decide +kernel
  have hfork : (runFrom smallSource smallDisk (fun _ => 0)
      [.init 0, .init 1, .yield 0, .yield 0, .yield 1]).map (fun s =>
        (sysFork smallSource s.kernel 1).toOption.map fun x =>
          (x.1, (x.2.program (0, 3)).map (·.page 0))) =
      some (some (some (0, 3), some 0x49)) := by
    decide +kernel
  obtain ⟨s, hs, hcall⟩ := Option.map_eq_some_iff.mp hcall
  obtain ⟨huser, hcaller⟩ := Prod.mk.inj hcall
  rw [hs, Option.map_some, Option.some_inj] at hfork
  obtain ⟨⟨res, k'⟩, hfork, hres⟩ := Option.map_eq_some_iff.mp hfork
  obtain ⟨rfl, hchild⟩ := Prod.mk.inj hres
  rw [toOption_eq_some] at hfork
  obtain ⟨s₀, hboot, hrun⟩ := run_of_runFrom _ _ hs
  refine ⟨s₀, s, k', hboot, hrun, System.userOn_eq_some huser, hfork, fun hC => ?_⟩
  rw [hC.program, Option.map_map] at hchild
  exact absurd (hchild.symm.trans hcaller) (by decide)

end TinyMultiCore
