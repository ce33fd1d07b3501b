import Mathlib.Data.List.Basic
import TinyMultiCore.Kernel.Machine
import TinyMultiCore.Lib.Ring
import TinyMultiCore.Lib.Run

/-!
# The buddy allocator

The allocator of `src/memory.c` (`MEMORYMANAGER == BuddyMode`): nine circular
free lists whose nodes live in the first words of the free blocks themselves.

A `list_node_t*` points at one of the list heads `allocator.free_lists[i]` or at
the first bytes of a 2MB-aligned block (`NodeRef`); the memory is the map of link
fields `Links NodeRef`. The heads lie in the kernel image and the blocks behind
it, so the two kinds of node never overlap. `MEM_SIZE`, `free_memory` and the
other allocator of the file are not compiled in; the two spin locks around
`buddy_alloc` and `buddy_free` make the calls atomic.

`AllocStep` is the allocator together with its clients: a `kalloc`, or a
`kfree` of a page that `kalloc` returned and that was not freed since.
-/

namespace TinyMultiCore

open IntrusiveRing TransitionSystem

/-- `MAX_ORDER` -/
def maxOrder : Nat := 9

/-- What a `list_node_t*` points at. -/
inductive NodeRef where
  /-- `&allocator.free_lists[i]` -/
  | head (i : Nat)
  /-- The node in the first bytes of the block at address `a`. -/
  | block (a : U64)
  deriving DecidableEq

/-- The link fields of every list node. -/
abbrev NodeLinks := Links NodeRef

/-- `NULL` -/
def NodeRef.null : NodeRef := .block 0

/-- `1UL << (i + PAGE_SHIFT)` -/
def blockSize (i : Nat) : U64 := 1#64 <<< (i + pageShift)

/-! ## `list_node_t` -/

def listInit (m : NodeLinks) (head : NodeRef) : NodeLinks :=
  (m.setNext head head).setPrev head head

def listAdd (m : NodeLinks) (head node : NodeRef) : NodeLinks :=
  let m := m.setNext node (m.next head)
  let m := m.setPrev node head
  let m := m.setPrev (m.next head) node
  m.setNext head node

def listDel (m : NodeLinks) (node : NodeRef) : NodeLinks :=
  let m := m.setNext (m.prev node) (m.next node)
  m.setPrev (m.next node) (m.prev node)

def listEmpty (m : NodeLinks) (head : NodeRef) : Bool := m.next head = head

/-! ## `buddy_init` -/

/-- `buddy_allocator_t`, with the memory its lists are threaded through. -/
structure BuddyAllocator where
  links : NodeLinks
  startAddr : U64

/-- The loop `for (i = 0; i < n; i++) list_init(&allocator.free_lists[i])`. -/
def initHeads (m : NodeLinks) : Nat → NodeLinks
  | 0 => m
  | n + 1 => listInit (initHeads m n) (.head n)

/-- The inner loop of `buddy_init`, with the orders below `i` still to try: the
block of the largest order that fits and is aligned is put on its list. -/
def placeBlock (m : NodeLinks) (current remaining : U64) :
    Nat → Option (NodeLinks × U64 × U64)
  | 0 => none
  | i + 1 =>
    if remaining ≥ blockSize i ∧ current % blockSize i = 0 then
      some (listAdd m (.head i) (.block current),
        current + blockSize i, remaining - blockSize i)
    else placeBlock m current remaining i

/-- The outer loop of `buddy_init`. When no order fits nothing changes and the
loop spins. -/
def initLoop : Nat → NodeLinks → U64 → U64 → Except Halt NodeLinks
  | 0, _, _, _ => .error .runaway
  | fuel + 1, m, current, remaining =>
    if remaining ≥ 1#64 <<< 21 then
      match placeBlock m current remaining maxOrder with
      | some (m, current, remaining) => initLoop fuel m current remaining
      | none => .error .runaway
    else .ok m

/-- Every turn of the loop that goes on takes a page or more, so `size / 2MB`
turns and the final test are all there can be. -/
def buddyInit (m : NodeLinks) (start size : U64) : Except Halt BuddyAllocator := do
  let links ← initLoop (size.toNat / 2 ^ 21 + 1) (initHeads m maxOrder) start size
  return { links, startAddr := start }

/-! ## `buddy_alloc` -/

/-- `while (i > order) { i--; … }`: the upper halves go back on the lists. -/
def splitBlock (m : NodeLinks) (block : U64) (order : Nat) : Nat → NodeLinks
  | 0 => m
  | i + 1 =>
    if i + 1 > order then
      splitBlock (listAdd m (.head i) (.block (block + blockSize i))) block order i
    else m

/-- The loop over the orders from `i`, with `n` of them left to look at. The
node taken from a list is a block's in every state the allocator can be in; a
list head handed out as memory is outside this model. -/
def allocLoop (m : NodeLinks) (order : Nat) : Nat → Nat → Except Halt (U64 × NodeLinks)
  | 0, _ => .ok (0, m)
  | n + 1, i =>
    if listEmpty m (.head i) then allocLoop m order n (i + 1)
    else
      match m.next (.head i) with
      | .block block => .ok (block, splitBlock (listDel m (.block block)) block order i)
      | .head _ => .error .fault

/-- The result is the address, `0` for `NULL`. -/
def buddyAlloc (m : NodeLinks) (order : Nat) : Except Halt (U64 × NodeLinks) :=
  allocLoop m order (maxOrder - order) order

/-! ## `buddy_free` -/

/-- The buddy's address of the order-`i` block at `addr`. -/
def buddyOf (start addr : U64) (i : Nat) : U64 :=
  start + ((addr - start) ^^^ blockSize i)

/-- More nodes than there are: a walk that is still under way after as many
steps is in a cycle. -/
def walkBound : Nat := 2 ^ 64 + maxOrder

/-- The search `for (curr = head->next; curr != head; curr = curr->next)`. -/
def findBuddy (m : NodeLinks) (i : Nat) (buddy : U64) : Except Halt Bool :=
  match m.search (.head i) (.block buddy) walkBound (m.next (.head i)) with
  | some found => .ok found
  | none => .error .runaway

/-- The loop of `buddy_free` from order `i`, with `n` orders left. -/
def freeLoop (start : U64) : Nat → Nat → U64 → NodeLinks → Except Halt NodeLinks
  | 0, _, _, m => .ok m
  | n + 1, i, addr, m => do
    let buddy := buddyOf start addr i
    if ← findBuddy m i buddy then
      let m := listDel m (.block buddy)
      let addr := if addr < buddy then addr else buddy
      let m := listAdd m (.head i) (.block addr)
      freeLoop start n (i + 1) addr m
    else return m

def buddyFree (a : BuddyAllocator) (ptr : U64) (order : Nat) : Except Halt BuddyAllocator := do
  let links ← freeLoop a.startAddr (maxOrder - 1 - order) order ptr a.links
  return { a with links }

/-! ## `kalloc` and `kfree` -/

/-- `memset(p, 0, PAGE_SIZE)`, as far as the list nodes in the page see it. -/
def memsetPage (m : NodeLinks) (p : U64) : NodeLinks where
  next
    | .block a => if a - p < pageSize then .null else m.next (.block a)
    | .head i => m.next (.head i)
  prev
    | .block a => if a - p < pageSize then .null else m.prev (.block a)
    | .head i => m.prev (.head i)

def kalloc (a : BuddyAllocator) : Except Halt (U64 × BuddyAllocator) := do
  let (res, links) ← buddyAlloc a.links 0
  if res = 0 then return (0, { a with links })
  else return (res, { a with links := memsetPage links res })

/-- `kernelEnd` is the address of the linker's symbol `end`. -/
def kfree (kernelEnd : U64) (a : BuddyAllocator) (v : U64) : Except Halt BuddyAllocator := do
  kernelAssert (v % pageSize = 0)
  kernelAssert (v ≥ kernelEnd)
  kernelAssert (v + pageSize ≤ memoryEnd)
  buddyFree a v 0

/-! ## The allocator and its clients -/

/-- The allocator and the pages its clients hold. -/
structure AllocState where
  allocator : BuddyAllocator
  live : List U64

inductive AllocOp where
  | kalloc
  | kfree (v : U64)
  deriving DecidableEq

/-- One call. `kfree` is only given pages the clients hold; a page that `kalloc`
returns is theirs from then on. -/
def AllocStep (kernelEnd : U64) (s : AllocState) : AllocOp → AllocState → Prop
  | .kalloc, t => ∃ res a, kalloc s.allocator = .ok (res, a) ∧
      t = ⟨a, if res = 0 then s.live else res :: s.live⟩
  | .kfree v, t => v ∈ s.live ∧ ∃ a, kfree kernelEnd s.allocator v = .ok a ∧
      t = ⟨a, s.live.erase v⟩

/-- The calls of the list one after the other. -/
def callAll (kernelEnd : U64) (s : AllocState) : List AllocOp → Option AllocState
  | [] => some s
  | .kalloc :: ops =>
    match kalloc s.allocator with
    | .ok (res, a) => callAll kernelEnd ⟨a, if res = 0 then s.live else res :: s.live⟩ ops
    | .error _ => none
  | .kfree v :: ops =>
    if v ∈ s.live then
      match kfree kernelEnd s.allocator v with
      | .ok a => callAll kernelEnd ⟨a, s.live.erase v⟩ ops
      | .error _ => none
    else none

theorem callAll_run {kernelEnd : U64} {t : AllocState} : ∀ {ops : List AllocOp} {s : AllocState},
    callAll kernelEnd s ops = some t → Run (AllocStep kernelEnd) s ops t
  | [], s, h => by
    cases h
    exact .nil
  | .kalloc :: ops, s, h => by
    rw [callAll] at h
    split at h
    · rename_i res a hk
      exact .cons ⟨res, a, hk, rfl⟩ (callAll_run h)
    · cases h
  | .kfree v :: ops, s, h => by
    rw [callAll] at h
    split at h
    · rename_i hv
      split at h
      · rename_i a hk
        exact .cons ⟨hv, a, hk, rfl⟩ (callAll_run h)
      · cases h
    · cases h

/-- The pages allocated after `buddy_init` and the calls of the list. -/
def liveAfter (kernelEnd : U64) (m : NodeLinks) (start size : U64) (ops : List AllocOp) :
    Option (List U64) :=
  match buddyInit m start size with
  | .ok a => (callAll kernelEnd ⟨a, []⟩ ops).map AllocState.live
  | .error _ => none

theorem liveAfter_run {kernelEnd start size : U64} {m : NodeLinks} {ops : List AllocOp}
    {live : List U64} (h : liveAfter kernelEnd m start size ops = some live) :
    ∃ a s, buddyInit m start size = .ok a ∧ Run (AllocStep kernelEnd) ⟨a, []⟩ ops s ∧
      s.live = live := by
  rw [liveAfter] at h
  split at h
  · rename_i a ha
    obtain ⟨s, hs, rfl⟩ := Option.map_eq_some_iff.mp h
    exact ⟨a, s, ha, callAll_run hs, rfl⟩
  · cases h

/-- Memory in which every link is `NULL`. -/
def nullLinks : NodeLinks := ⟨fun _ => .null, fun _ => .null⟩

theorem allocStep_unique {kernelEnd : U64} :
    ∀ (s : AllocState) (op : AllocOp) (t u : AllocState),
      AllocStep kernelEnd s op t → AllocStep kernelEnd s op u → t = u := by
  intro s op t u ht hu
  cases op with
  | kalloc =>
    obtain ⟨res, a, hk, rfl⟩ := ht
    obtain ⟨res', a', hk', rfl⟩ := hu
    rw [hk] at hk'
    cases hk'
    rfl
  | kfree v =>
    obtain ⟨-, a, hk, rfl⟩ := ht
    obtain ⟨-, a', hk', rfl⟩ := hu
    rw [hk] at hk'
    cases hk'
    rfl

end TinyMultiCore
