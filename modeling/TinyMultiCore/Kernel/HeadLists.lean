import TinyMultiCore.Kernel.Lists
import TinyMultiCore.Lib.Simulation

/-!
# The lists as sequences

A `HeadListCall` is a call of one of the three functions that change a list, `exec` makes it
on the links and heads, and `onSeqs` says what it means for the sequences the lists hold:
append at the end, take the first, take the first that waits for a value. The `wait`
fields are not the lists' own, so a call of `remove_list` comes with them as they are then.

* `simulates` — one call, with a bound on the walk of `remove_list`;
* `calls_act_on_sequences` — any sequence of calls in which no item is put into a second
  list.
-/

namespace TinyMultiCore

open LinkedList Simulation

/-- A call of one of the list functions. -/
inductive HeadListCall (κ ι : Type) where
  | appendListTail (list : κ) (item : ι)
  | removeListHead (list : κ)
  | removeList (list : κ) (wait : ι → U32) (value : U32)

namespace HeadListCall

variable {κ ι : Type} [DecidableEq κ] [DecidableEq ι]

/-- The call, with the item it returns. A walk of `remove_list` past `bound` items is in a
cycle. -/
def exec (bound : Nat) : HeadListCall κ ι → Lists κ ι → Except Halt (Option ι × Lists κ ι)
  | appendListTail list item, s => do
    let s ← s.appendListTail list item
    return (none, s)
  | removeListHead list, s => return s.removeListHead list
  | removeList list wait value, s => s.removeList wait bound list value

/-- What the call is for: the sequences of the lists before and after it. -/
def onSeqs : HeadListCall κ ι → (κ → List ι) → Option ι × (κ → List ι)
  | appendListTail list item, v => (none, Function.update v list (v list ++ [item]))
  | removeListHead list, v => ((v list).head?, Function.update v list (v list).tail)
  | removeList list wait value, v =>
    ((v list).find? fun y => wait y = value,
      Function.update v list ((v list).eraseP fun y => wait y = value))

/-- An appended item is on no list. -/
def Legal : HeadListCall κ ι → (κ → List ι) → Prop
  | appendListTail _ item, v => ∀ l, item ∉ v l
  | _, _ => True

/-- And a walk of `remove_list` gets to the end of its list. -/
def LegalWithin (bound : Nat) : HeadListCall κ ι → (κ → List ι) → Prop
  | appendListTail _ item, v => ∀ l, item ∉ v l
  | removeListHead _, _ => True
  | removeList list _ _, v => (v list).length ≤ bound

omit [DecidableEq κ] [DecidableEq ι] in
theorem Legal.within (a : HeadListCall κ ι) (v : κ → List ι) (h : a.Legal v) :
    ∃ n, ∀ m ≥ n, a.LegalWithin m v := by
  match a, h with
  | appendListTail _ _, h => exact ⟨0, fun _ _ => h⟩
  | removeListHead _, _ => exact ⟨0, fun _ _ => trivial⟩
  | removeList list _ _, _ => exact ⟨(v list).length, fun _ hm => hm⟩

/-- **One call.** -/
theorem simulates (bound : Nat) :
    Simulates (exec bound) (onSeqs (κ := κ) (ι := ι)) (LegalWithin bound) Queues := by
  intro a s v h hlegal
  match a, hlegal with
  | appendListTail list item, hlegal =>
    obtain ⟨s', happend, hq⟩ := h.append list hlegal
    refine ⟨s', ?_, hq⟩
    show (do
      let s ← s.appendListTail list item
      return (none, s)) = _
    rw [happend]
    rfl
  | removeListHead list, _ =>
    show ∃ s', Except.ok (s.removeListHead list) =
      .ok ((v list).head?, s') ∧ Queues s' (Function.update v list (v list).tail)
    cases hv : v list with
    | nil =>
      -- nothing is there to be taken
      have hempty : (s.head list).next = none := h.isListEmpty_iff.mpr hv
      refine ⟨s, ?_, ?_⟩
      · unfold Lists.removeListHead
        rw [hempty]
        rfl
      · rw [List.tail_nil, ← hv, Function.update_eq_self]
        exact h
    | cons x xs =>
      obtain ⟨s', hremove, hq⟩ := h.removeHead hv
      exact ⟨s', by rw [hremove]; rfl, hq⟩
  | removeList list wait value, hlegal =>
    exact h.removeList wait value hlegal

end HeadListCall

variable {κ ι : Type} [DecidableEq κ] [DecidableEq ι] {s : Lists κ ι} {v : κ → List ι}

/-- **The lists are sequences.** From lists that hold the sequences `v`, any calls that
append only items which are on no list return what they would on the sequences, and each
list is again a chain of its sequence: every item once, `NULL` behind the last one, and
`tail` the last one or `NULL`. The walks of `remove_list` end. -/
theorem calls_act_on_sequences (calls : List (HeadListCall κ ι)) (h : Queues s v)
    (hlegal : LegalAll HeadListCall.onSeqs HeadListCall.Legal calls v) :
    ∃ n, ∀ bound ≥ n, ∃ s',
      runCalls (HeadListCall.exec bound) calls s =
        .ok ((specAll HeadListCall.onSeqs calls v).1, s') ∧
      (∀ list,
        LinkedList.Represents s'.next (s'.head list) ((specAll HeadListCall.onSeqs calls v).2 list) ∧
        (s'.isListEmpty list ↔ (specAll HeadListCall.onSeqs calls v).2 list = [])) ∧
      ∀ list list' x, x ∈ (specAll HeadListCall.onSeqs calls v).2 list →
        x ∈ (specAll HeadListCall.onSeqs calls v).2 list' → list = list' := by
  obtain ⟨n, hn⟩ := hlegal.eventually HeadListCall.Legal.within
  refine ⟨n, fun bound hbound => ?_⟩
  obtain ⟨s', hcalls, hq⟩ := (HeadListCall.simulates bound).runCalls h (hn bound hbound)
  exact ⟨s', hcalls, fun list => ⟨hq.rep list, hq.isListEmpty_iff⟩, hq.disjoint⟩

/-- Two lists of numbers: three items are appended to the first one, the one in the middle
is taken out and put into the second one, and the first one is emptied from the front. -/
theorem middle_item_moves :
    ∃ n, ∀ bound ≥ n, ∃ s' : Lists Bool Nat,
      runCalls (HeadListCall.exec bound)
        [.appendListTail false 1, .appendListTail false 2, .appendListTail false 3,
          .removeList false (fun x => BitVec.ofNat 32 x) 2, .appendListTail true 2,
          .removeListHead false, .removeListHead false, .removeListHead false]
        ⟨fun _ => none, fun _ => ⟨none, none⟩⟩ =
        .ok ([none, none, none, some 2, none, some 1, some 3, none], s') ∧
      LinkedList.Represents s'.next (s'.head false) [] ∧
      LinkedList.Represents s'.next (s'.head true) [2] := by
  have hempty : Queues (⟨fun _ => none, fun _ => ⟨none, none⟩⟩ : Lists Bool Nat) fun _ => [] :=
    ⟨fun _ => .nil, fun _ _ _ hx => absurd hx List.not_mem_nil⟩
  obtain ⟨n, hn⟩ := calls_act_on_sequences
    [.appendListTail false 1, .appendListTail false 2, .appendListTail false 3,
      .removeList false (fun x => BitVec.ofNat 32 x) 2, .appendListTail true 2,
      .removeListHead false, .removeListHead false, .removeListHead false] hempty
    (by simp [LegalAll, HeadListCall.Legal, HeadListCall.onSeqs])
  refine ⟨n, fun bound hbound => ?_⟩
  obtain ⟨s', hcalls, hlists, -⟩ := hn bound hbound
  refine ⟨s', hcalls, ?_, ?_⟩
  · exact (hlists false).1
  · exact (hlists true).1

end TinyMultiCore
