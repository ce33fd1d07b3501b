import Mathlib.Tactic.FinCases
import TinyMultiCore.Process.Scheduler
import TinyMultiCore.Process.SetupUvm

/-!
# Who wakes up

`wake_up(w)` goes through the wait lists of the cores and takes out one process after the
other that waits for `w`. On the sequences the lists hold, each wait list is split into the
processes that do not wait for `w`, which stay, and those that do, which go behind the
ready ones.

* `wakeLoop_moves` — the loop of one core, by induction on the processes it has to wake;
* `wakeUp_moves` — all cores.
-/

namespace TinyMultiCore

open LinkedList

/-- The processes of core `c` that wait for the event, in the order of their list. -/
def woken (k : Kernel) (v : ListId → List ProcRef) (wait : U32) (c : Core) : List ProcRef :=
  (v (c, .wait)).filter fun r => (k.table r).wait = wait

/-- The processes become ready. -/
def Kernel.makeReady (k : Kernel) (rs : List ProcRef) : Kernel :=
  { k with table := fun r => if r ∈ rs then { k.table r with state := .ready } else k.table r }

/-- The lists after the loop of core `c`. -/
def wakeCore (k : Kernel) (v : ListId → List ProcRef) (wait : U32) (c : Core) :
    ListId → List ProcRef :=
  Function.update
    (Function.update v (c, .wait) ((v (c, .wait)).filter fun r => (k.table r).wait ≠ wait))
    (c, .ready) (v (c, .ready) ++ woken k v wait c)

variable {k : Kernel} {v : ListId → List ProcRef} {wait : U32} {c : Core} {r : ProcRef}

-- ---------------------------------------------------------------------------
-- Processes made ready
-- ---------------------------------------------------------------------------

namespace Kernel

@[simp] theorem makeReady_nil (k : Kernel) : k.makeReady [] = k := by simp [makeReady]

@[simp] theorem makeReady_wait (k : Kernel) (rs : List ProcRef) (r : ProcRef) :
    ((k.makeReady rs).table r).wait = (k.table r).wait := by
  unfold makeReady
  by_cases hr : r ∈ rs
  · simp only [if_pos hr]
  · simp only [if_neg hr]

theorem makeReady_makeReady (k : Kernel) (rs rs' : List ProcRef) :
    (k.makeReady rs).makeReady rs' = k.makeReady (rs ++ rs') := by
  unfold makeReady
  congr 1
  funext r
  by_cases hr : r ∈ rs <;> by_cases hr' : r ∈ rs' <;> simp [hr, hr']

theorem setState_ready (k : Kernel) (r : ProcRef) : k.setState r .ready = k.makeReady [r] := by
  unfold setState setProcess makeReady
  congr 1
  funext y
  by_cases hy : y = r
  · rw [hy, Function.update_self, if_pos (List.mem_singleton_self r)]
  · rw [Function.update_of_ne hy, if_neg (by simpa using hy)]

end Kernel

-- ---------------------------------------------------------------------------
-- One core
-- ---------------------------------------------------------------------------

/-- One turn: the first process that waits for the event. -/
theorem wakeLoop_cons {pre post : List ProcRef} (h : Queues k.lists v)
    (hv : v (c, .wait) = pre ++ r :: post) (hpre : ∀ y ∈ pre, (k.table y).wait ≠ wait)
    (hr : (k.table r).wait = wait) (bound : Nat) :
    ∃ lists, wakeLoop c wait (bound + 1) k =
        wakeLoop c wait bound { k.makeReady [r] with lists } ∧
      Queues lists (Function.update (Function.update v (c, .wait) (pre ++ post))
        (c, .ready) (v (c, .ready) ++ [r])) := by
  obtain ⟨lists, hremove, hq⟩ := h.removeList (fun r => (k.table r).wait) wait
    (h.length_le (c, .wait))
  have hnot : ∀ y ∈ pre, ¬decide ((k.table y).wait = wait) = true :=
    fun y hy => by simpa using hpre y hy
  rw [hv, List.find?_append, List.find?_eq_none.mpr hnot, Option.none_or,
    List.find?_cons_of_pos (by simpa using hr)] at hremove
  rw [hv, List.eraseP_append_right _ hnot, List.eraseP_cons_of_pos (by simpa using hr)] at hq
  -- in between, the process is on no list
  have hfree : ∀ l, r ∉ Function.update v (c, .wait) (pre ++ post) l := by
    intro l hmem
    by_cases hl : l = (c, .wait)
    · have hnodup := (h.rep (c, .wait)).nodup
      rw [hv] at hnodup
      rw [hl, Function.update_self] at hmem
      exact (List.nodup_cons.mp (List.perm_middle.nodup hnodup)).1 hmem
    · rw [Function.update_of_ne hl] at hmem
      exact hl (h.disjoint l (c, .wait) r hmem (by simp [hv]))
  obtain ⟨lists', happend, hq'⟩ := hq.append (c, .ready) hfree
  rw [Function.update_of_ne (by simp)] at hq'
  refine ⟨lists', ?_, hq'⟩
  rw [wakeLoop, Kernel.removeList_eq hremove, ok_bind]
  dsimp only
  rw [append_eq_ok.mpr ⟨lists', happend, rfl⟩, ok_bind, ← Kernel.setState_ready]
  rfl

/-- What is left after one turn is moved by the others. -/
theorem wakeCore_cons {k₁ : Kernel} {v₁ : ListId → List ProcRef} {pre post rs : List ProcRef}
    (hv : v (c, .wait) = pre ++ r :: post) (hr : (k.table r).wait = wait)
    (hsame : ∀ y, (k₁.table y).wait = (k.table y).wait)
    (hv₁ : v₁ = Function.update (Function.update v (c, .wait) (pre ++ post))
      (c, .ready) (v (c, .ready) ++ [r]))
    (hw : woken k v wait c = r :: rs) (hw₁ : woken k₁ v₁ wait c = rs) :
    wakeCore k₁ v₁ wait c = wakeCore k v wait c := by
  have hne : ((c, .wait) : ListId) ≠ (c, .ready) := by simp
  have hwait : v₁ (c, .wait) = pre ++ post := by
    rw [hv₁, Function.update_of_ne hne, Function.update_self]
  have hready : v₁ (c, .ready) = v (c, .ready) ++ [r] := by rw [hv₁, Function.update_self]
  funext l
  unfold wakeCore
  by_cases hl : l = (c, .ready)
  · rw [hl, Function.update_self, Function.update_self, hready, hw, hw₁, List.append_assoc,
      List.singleton_append]
  · rw [Function.update_of_ne hl, Function.update_of_ne hl]
    by_cases hl' : l = (c, .wait)
    · rw [hl', Function.update_self, Function.update_self, hwait, hv]
      simp [hsame, List.filter_append, hr]
    · rw [Function.update_of_ne hl', Function.update_of_ne hl', hv₁, Function.update_of_ne hl,
        Function.update_of_ne hl']

/-- **The loop of one core**, with enough turns for the processes that wait. By induction on these:
`remove_list` takes the first of them off the wait list, so the rest keep their order, and the last
turn finds none. -/
theorem wakeLoop_moves {bound : Nat} (h : Queues k.lists v)
    (hbound : (woken k v wait c).length < bound) :
    ∃ lists, wakeLoop c wait bound k = .ok { k.makeReady (woken k v wait c) with lists } ∧
      Queues lists (wakeCore k v wait c) := by
  generalize hw : woken k v wait c = rs at hbound
  induction rs generalizing k v bound with
  | nil =>
    -- nobody waits
    obtain ⟨bound, rfl⟩ := Nat.exists_eq_succ_of_ne_zero (Nat.ne_zero_of_lt hbound)
    have hnone : ∀ y ∈ v (c, .wait), ¬decide ((k.table y).wait = wait) = true :=
      List.filter_eq_nil_iff.mp hw
    obtain ⟨lists, hremove, hq⟩ := h.removeList (fun r => (k.table r).wait) wait
      (h.length_le (c, .wait))
    rw [List.find?_eq_none.mpr hnone] at hremove
    rw [List.eraseP_of_forall_not hnone, Function.update_eq_self] at hq
    refine ⟨lists, ?_, ?_⟩
    · rw [wakeLoop, Kernel.removeList_eq hremove, ok_bind, Kernel.makeReady_nil]
      rfl
    · have hstay : (v (c, .wait)).filter (fun r => (k.table r).wait ≠ wait) = v (c, .wait) :=
        List.filter_eq_self.mpr fun y hy => by simpa using hnone y hy
      rw [wakeCore, hstay, hw, List.append_nil, Function.update_eq_self, Function.update_eq_self]
      exact hq
  | cons r rs ih =>
    obtain ⟨bound, rfl⟩ := Nat.exists_eq_succ_of_ne_zero (Nat.ne_zero_of_lt hbound)
    obtain ⟨pre, post, hv, hpre, hr, hrest⟩ := List.filter_eq_cons_iff.mp hw
    have hpre' : ∀ y ∈ pre, (k.table y).wait ≠ wait := fun y hy => by simpa using hpre y hy
    have hr' : (k.table r).wait = wait := by simpa using hr
    obtain ⟨lists, hturn, hq⟩ := wakeLoop_cons h hv hpre' hr' bound
    -- the others still wait for what they did
    have hw' : woken { k.makeReady [r] with lists } (Function.update
        (Function.update v (c, .wait) (pre ++ post)) (c, .ready) (v (c, .ready) ++ [r]))
        wait c = rs := by
      unfold woken
      rw [Function.update_of_ne (by simp), Function.update_self, List.filter_append]
      simp only [Kernel.makeReady_wait, hrest]
      rw [List.filter_eq_nil_iff.mpr hpre, List.nil_append]
    obtain ⟨lists', hloop, hq'⟩ := ih hq hw' (Nat.lt_of_succ_lt_succ hbound)
    refine ⟨lists', ?_, ?_⟩
    · rw [hturn, hloop]
      show Except.ok { (k.makeReady [r]).makeReady rs with lists := lists' } = _
      rw [Kernel.makeReady_makeReady, List.singleton_append]
    · have hcore : wakeCore { k.makeReady [r] with lists } _ wait c = wakeCore k v wait c :=
        wakeCore_cons hv hr' (fun y => Kernel.makeReady_wait k [r] y) rfl hw hw'
      rw [hcore] at hq'
      exact hq'

-- ---------------------------------------------------------------------------
-- All cores
-- ---------------------------------------------------------------------------

section

variable (k v wait c)

theorem wakeCore_wait : wakeCore k v wait c (c, .wait) =
    (v (c, .wait)).filter fun r => (k.table r).wait ≠ wait := by
  unfold wakeCore
  rw [Function.update_of_ne (by simp), Function.update_self]

theorem wakeCore_ready :
    wakeCore k v wait c (c, .ready) = v (c, .ready) ++ woken k v wait c := by
  unfold wakeCore
  rw [Function.update_self]

theorem wakeCore_kill : wakeCore k v wait c (c, .kill) = v (c, .kill) := by
  unfold wakeCore
  rw [Function.update_of_ne (by simp), Function.update_of_ne (by simp)]

/-- The lists of another core are not concerned. -/
theorem wakeCore_of_ne {c' : Core} (q : ListName) (hc : c' ≠ c) :
    wakeCore k v wait c (c', q) = v (c', q) := by
  unfold wakeCore
  rw [Function.update_of_ne (by simp [hc]), Function.update_of_ne (by simp [hc])]

end

variable (k v wait c) in
/-- The next core: the processes `rs` of those before it have been woken. -/
theorem wakeLoop_next (rs : List ProcRef) {lists : Lists ListId ProcRef}
    {v' : ListId → List ProcRef} (h : Queues lists v') (hv : v' (c, .wait) = v (c, .wait)) :
    ∃ lists', wakeLoop c wait 121 { k.makeReady rs with lists } =
        .ok { k.makeReady (rs ++ woken k v wait c) with lists := lists' } ∧
      Queues lists' (wakeCore k v' wait c) := by
  have hw : woken { k.makeReady rs with lists } v' wait c = woken k v wait c := by
    unfold woken
    simp only [Kernel.makeReady_wait, hv]
  have hcore : wakeCore { k.makeReady rs with lists } v' wait c = wakeCore k v' wait c := by
    unfold wakeCore woken
    simp only [Kernel.makeReady_wait]
  have hq : Queues ({ k.makeReady rs with lists } : Kernel).lists v' := h
  have hbound : (woken { k.makeReady rs with lists } v' wait c).length < 121 :=
    Nat.lt_succ_of_le (Nat.le_trans (List.length_filter_le ..) (hq.length_le _))
  obtain ⟨lists', hloop, hq'⟩ := wakeLoop_moves hq hbound
  rw [hcore] at hq'
  rw [hw] at hloop
  refine ⟨lists', ?_, hq'⟩
  rw [hloop, ← Kernel.makeReady_makeReady]
  rfl

/-- **`wake_up`.** It returns, and then on every core the wait list is the old one without
the processes that waited for the event, and the ready list the old one with them behind
it, both in the old order. They are ready; nothing else of any process has changed, nor has
anything else of the kernel. -/
theorem wakeUp_moves (h : Queues k.lists v) (wait : U32) :
    ∃ lists v', wakeUp k wait = .ok { k with
        table := fun r =>
          if ∃ c, r ∈ woken k v wait c then { k.table r with state := .ready } else k.table r
        lists } ∧
      Queues lists v' ∧ ∀ c,
        v' (c, .wait) = (v (c, .wait)).filter (fun r => (k.table r).wait ≠ wait) ∧
        v' (c, .ready) = v (c, .ready) ++ woken k v wait c ∧
        v' (c, .kill) = v (c, .kill) := by
  -- each core finds its lists as they were
  obtain ⟨l₀, hloop₀, hq₀⟩ := wakeLoop_next k v wait 0 [] h rfl
  obtain ⟨l₁, hloop₁, hq₁⟩ := wakeLoop_next k v wait 1 ([] ++ woken k v wait 0) hq₀
    (wakeCore_of_ne _ _ _ _ _ (by decide))
  obtain ⟨l₂, hloop₂, hq₂⟩ := wakeLoop_next k v wait 2 ([] ++ woken k v wait 0 ++ woken k v wait 1) hq₁
    (by rw [wakeCore_of_ne _ _ _ _ _ (by decide), wakeCore_of_ne _ _ _ _ _ (by decide)])
  obtain ⟨l₃, hloop₃, hq₃⟩ := wakeLoop_next k v wait 3
    ([] ++ woken k v wait 0 ++ woken k v wait 1 ++ woken k v wait 2) hq₂
    (by rw [wakeCore_of_ne _ _ _ _ _ (by decide), wakeCore_of_ne _ _ _ _ _ (by decide),
      wakeCore_of_ne _ _ _ _ _ (by decide)])
  rw [Kernel.makeReady_nil] at hloop₀
  refine ⟨l₃, _, ?_, hq₃, fun c => ?_⟩
  · have htable : (fun r => if ∃ c, r ∈ woken k v wait c then
        { k.table r with state := .ready } else k.table r) = (k.makeReady ([] ++ woken k v wait 0 ++
          woken k v wait 1 ++ woken k v wait 2 ++ woken k v wait 3)).table := by
      funext r
      simp [Kernel.makeReady, Fin.exists_fin_succ]
    rw [wakeUp, hloop₀, ok_bind, hloop₁, ok_bind, hloop₂, ok_bind, hloop₃, htable]
    rfl
  · -- the loop of core `c` is the only one that has changed its lists
    fin_cases c <;>
      simp [wakeCore_of_ne, wakeCore_wait, wakeCore_ready, wakeCore_kill, woken]

/-- Three processes asleep on core 0; the first and the last wait for the event 5. -/
def threeAsleep : Kernel :=
  { freshKernel with
    table := fun r =>
      if r.1 = 0 ∧ r.2 ∈ [1, 2, 3] then
        { Process.zero with state := .sleep, wait := if r.2 = 2 then 7 else 5 }
      else .zero
    lists :=
      { next := fun r => if r = (0, 1) then some (0, 2) else if r = (0, 2) then some (0, 3) else none
        head := fun l => if l = (0, .wait) then ⟨some (0, 1), some (0, 3)⟩ else ⟨none, none⟩ } }

/-- Its lists. -/
def sleepers (l : ListId) : List ProcRef :=
  if l = (0, .wait) then [(0, 1), (0, 2), (0, 3)] else []

theorem threeAsleep_queues : Queues threeAsleep.lists sleepers := by
  refine ⟨fun l => ?_, fun l l' x hx hx' => ?_⟩
  · by_cases hl : l = (0, .wait)
    · rw [hl]
      exact ⟨⟨rfl, rfl, rfl, rfl⟩, by decide, rfl⟩
    · have hhead : threeAsleep.lists.head l = ⟨none, none⟩ := if_neg hl
      rw [hhead, sleepers, if_neg hl]
      exact .nil
  · have honly : ∀ m, x ∈ sleepers m → m = (0, .wait) := by
      intro m hm
      by_contra hne
      rw [sleepers, if_neg hne] at hm
      exact absurd hm List.not_mem_nil
    rw [honly l hx, honly l' hx']

theorem first_and_last_wake :
    ∃ lists v', wakeUp threeAsleep 5 = .ok { threeAsleep with
        table := fun r =>
          if ∃ c, r ∈ woken threeAsleep sleepers 5 c then
            { threeAsleep.table r with state := .ready } else threeAsleep.table r
        lists } ∧
      Queues lists v' ∧ v' (0, .wait) = [(0, 2)] ∧ v' (0, .ready) = [(0, 1), (0, 3)] := by
  obtain ⟨lists, v', hok, hq, hv⟩ := wakeUp_moves threeAsleep_queues 5
  exact ⟨lists, v', hok, hq, (hv 0).1.trans (by decide), (hv 0).2.1.trans (by decide)⟩

end TinyMultiCore
