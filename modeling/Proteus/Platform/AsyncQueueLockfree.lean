/-
**The lock-free queue between two threads** (`platform/util/async_containers.hpp`,
`AsyncQueueSPSC_lockfree`).

A ring of 32 places with two indices. The pushing thread is the only one that stores `_tail`, the
popping thread the only one that stores `_head`; each loads the other's index until the ring is not
full, or not empty, and acts on what it has loaded. A load that sends a thread round its loop again
is a step that has to wait.

* `step_lockfree` — what each load and store keeps.
* `lockfree_fifo` — a bounded queue in every interleaving.
-/

import Proteus.Library.Reachable

namespace Proteus.Platform

open Library List

/-- Where `push(x)` is: before the loads of `_head`, before the write to the array, before the store
of `_tail`. -/
inductive PushPhase (α : Type) where
  | idle
  | full (x : α) (currentTail : Nat)
  | writing (x : α) (currentTail : Nat)
  | storing (x : α) (currentTail : Nat)

inductive PopPhase (α : Type) where
  | idle
  | empty (currentHead : Nat)
  | reading (currentHead : Nat)
  | storing (currentHead : Nat) (item : α)

structure LockfreeQueue (α : Type) where
  tail : Nat
  head : Nat
  array : Nat → α
  producer : PushPhase α
  consumer : PopPhase α
  pushed : List α
  popped : List (α × Bool)

/-- The next step of a thread; `x` is what a new call of `push` is given. -/
inductive LockfreeAction (α : Type) where
  | push (x : α)
  | pop

namespace LockfreeQueue

variable {α : Type}

/-- `size` -/
def size : Nat := 32

def initial (array : Nat → α) : LockfreeQueue α := ⟨0, 0, array, .idle, .idle, [], []⟩

variable (state : LockfreeQueue α)

def push (x : α) : Option (LockfreeQueue α) :=
  match state.producer with
  | .idle => some { state with producer := .full x state.tail }
  | .full x currentTail =>
    if (currentTail + 1) % size = state.head then none else
      some { state with producer := .writing x currentTail }
  | .writing x currentTail =>
    some { state with
      array := Function.update state.array currentTail x, producer := .storing x currentTail }
  | .storing x currentTail =>
    some { state with tail := (currentTail + 1) % size, producer := .idle, pushed := state.pushed ++
      [x] }

def pop [DecidableEq α] (eof : α) : Option (LockfreeQueue α) :=
  match state.consumer with
  | .idle => some { state with consumer := .empty state.head }
  | .empty currentHead =>
    if currentHead = state.tail then none else some { state with consumer := .reading currentHead }
  | .reading currentHead =>
      some { state with consumer := .storing currentHead (state.array currentHead) }
  | .storing currentHead item =>
    some { state with
      head := (currentHead + 1) % size, consumer := .idle,
        popped := state.popped ++ [(item, decide (item ≠ eof))] }

def step [DecidableEq α] (eof : α) : LockfreeAction α → Option (LockfreeQueue α)
  | .push x => state.push x
  | .pop => state.pop eof

/-- The items in the queue. -/
def contents : List α := state.pushed.drop state.popped.length

/-- The slot holds an item that was pushed and not popped. -/
def Unread (slot : Nat) : Prop :=
  ∃ number, state.popped.length ≤ number ∧ number < state.pushed.length ∧ slot = number % size

end LockfreeQueue

/-- One thread that pushes and one that pops. -/
def lockfreeQueue {α : Type} [DecidableEq α] (eof : α) :
    Machine (LockfreeQueue α) (LockfreeAction α) :=
  .ofStep (fun state => ∃ array, state = .initial array) fun state => state.step eof

/-! ### The ring -/

open LockfreeQueue

section

variable {α : Type}

structure RingInv (eof : α) (state : LockfreeQueue α) : Prop where
  tail : state.tail = state.pushed.length % LockfreeQueue.size
  head : state.head = state.popped.length % LockfreeQueue.size
  low : state.popped.length ≤ state.pushed.length
  high : state.pushed.length < state.popped.length + LockfreeQueue.size
  slots : ∀ number, state.popped.length ≤ number → ∀ inside : number < state.pushed.length,
    state.array (number % LockfreeQueue.size) = state.pushed[number]
  popped : state.popped.map Prod.fst = state.pushed.take state.popped.length
  results : ∀ call ∈ state.popped, call.2 = false ↔ call.1 = eof

def PushPhase.Knows (state : LockfreeQueue α) : PushPhase α → Prop
  | .idle => True
  | .full _ currentTail => currentTail = state.tail
  | .writing _ currentTail =>
    currentTail = state.tail ∧ state.pushed.length + 1 < state.popped.length + LockfreeQueue.size
  | .storing x currentTail =>
    currentTail = state.tail ∧ state.pushed.length + 1 < state.popped.length + LockfreeQueue.size ∧
      state.array currentTail = x

def PopPhase.Knows (state : LockfreeQueue α) : PopPhase α → Prop
  | .idle => True
  | .empty currentHead => currentHead = state.head
  | .reading currentHead => currentHead = state.head ∧ state.popped.length < state.pushed.length
  | .storing currentHead item =>
    currentHead = state.head ∧ state.pushed[state.popped.length]? = some item

structure LockfreeInv (eof : α) (state : LockfreeQueue α) : Prop extends RingInv eof state where
  producer : state.producer.Knows state
  consumer : state.consumer.Knows state

variable {eof : α} {s a : LockfreeQueue α}

theorem RingInv.full_iff (inv : RingInv eof s) : (s.tail + 1) % size = s.head ↔
    s.pushed.length + 1 = s.popped.length + size := by
  have := inv.low
  have := inv.high
  rw [inv.tail, inv.head]
  simp only [size] at *
  omega

theorem RingInv.empty_iff (inv : RingInv eof s) :
    s.head = s.tail ↔ s.popped.length = s.pushed.length := by
  have := inv.low
  have := inv.high
  rw [inv.tail, inv.head]
  simp only [size] at *
  omega

theorem RingInv.not_unread (inv : RingInv eof s)
    (hr : s.pushed.length + 1 < s.popped.length + size) : ¬ s.Unread s.tail := by
  rintro ⟨n, low, hh, hs⟩
  rw [inv.tail] at hs
  simp only [size] at *
  omega

/-- **One step of the pushing thread.** -/
theorem push_lockfree (inv : LockfreeInv eof s) {x : α} (ht : s.push x = some a) :
    LockfreeInv eof a := by
  have hkn := inv.producer
  rw [push] at ht
  cases hp : s.producer <;> simp only [hp] at ht hkn
  case idle =>
    cases ht
    exact { inv with producer := rfl, consumer := inv.consumer }
  case full x ct =>
    obtain rfl : ct = s.tail := hkn
    obtain ⟨hf, ⟨⟩⟩ := Option.ite_none_left_eq_some.mp ht
    have hr := lt_of_le_of_ne inv.high fun hfu => hf (inv.full_iff.mpr hfu)
    exact { inv with producer := ⟨rfl, hr⟩, consumer := inv.consumer }
  case writing x ct =>
    obtain ⟨rfl, hr⟩ : ct = s.tail ∧ _ := hkn
    cases ht
    refine { inv with
      producer := ⟨rfl, hr, Function.update_self ..⟩, consumer := inv.consumer, slots := ?_ }
    -- the slot that is written is none of those that hold an item
    intro n low hh
    have ho : n % size ≠ s.tail := fun hs => inv.not_unread hr ⟨n, low, hh, hs.symm⟩
    exact (Function.update_of_ne ho ..).trans (inv.slots n low hh)
  case storing x ct =>
    obtain ⟨rfl, hr, hw⟩ : ct = s.tail ∧ _ ∧ s.array ct = x := hkn
    cases ht
    have hg : (s.pushed ++ [x]).length = s.pushed.length + 1 := length_append
    have low := inv.low
    refine ⟨⟨?_, inv.head, ?_, ?_, fun n low hh => ?_, ?_, inv.results⟩, trivial, ?_⟩
    · simp only [hg, inv.tail, Nat.mod_add_mod]
    · exact low.trans (hg ▸ Nat.le_succ _)
    · exact hg.trans_lt hr
    · rcases Nat.lt_or_ge n s.pushed.length with hi | hl
      · exact (inv.slots n low hi).trans (getElem_append_left hi).symm
      · obtain rfl : n = s.pushed.length := by simp only [hg] at hh; omega
        rw [getElem_concat_length rfl, ← hw, inv.tail]
    · simp only [take_append_of_le_length low, inv.popped]
    · have hk := inv.consumer
      cases hpo : s.consumer <;> rw [hpo] at hk
      case reading => exact ⟨hk.1, hk.2.trans_le (hg ▸ Nat.le_succ _)⟩
      case storing => exact ⟨hk.1, getElem?_concat_of_some hk.2⟩
      all_goals exact hk

/-- **One step of the popping thread.** -/
theorem pop_lockfree [DecidableEq α] (inv : LockfreeInv eof s) (ht : s.pop eof = some a) :
    LockfreeInv eof a := by
  have hkn := inv.consumer
  rw [pop] at ht
  cases hp : s.consumer <;> simp only [hp] at ht hkn
  case idle =>
    cases ht
    exact { inv with producer := inv.producer, consumer := rfl }
  case empty ch =>
    obtain rfl : ch = s.head := hkn
    obtain ⟨some, ⟨⟩⟩ := Option.ite_none_left_eq_some.mp ht
    have hf := lt_of_le_of_ne inv.low fun he => some (inv.empty_iff.mpr he)
    exact { inv with producer := inv.producer, consumer := ⟨rfl, hf⟩ }
  case reading ch =>
    obtain ⟨rfl, hf⟩ : ch = s.head ∧ _ := hkn
    cases ht
    refine { inv with producer := inv.producer, consumer := ⟨rfl, ?_⟩ }
    rw [inv.head, inv.slots _ le_rfl hf]
    exact List.getElem?_eq_getElem hf
  case storing ch x =>
    obtain ⟨rfl, hr⟩ : ch = s.head ∧ _ := hkn
    cases ht
    obtain ⟨hf, hv⟩ := List.getElem?_eq_some_iff.mp hr
    have hg : (s.popped ++ [(x, decide (x ≠ eof))]).length = s.popped.length + 1 := length_append
    refine ⟨⟨inv.tail, ?_, ?_, ?_, fun n low hh => ?_, ?_, fun c hm => ?_⟩, ?_, trivial⟩
    · simp only [hg, inv.head, Nat.mod_add_mod]
    · exact hg.trans_le hf
    · exact inv.high.trans (by simp only [hg]; omega)
    · exact inv.slots n (by simp only [hg] at low; omega) hh
    · simp only [hg, map_append, inv.popped, map_singleton, take_add_one, hr, Option.toList_some]
    · rcases mem_append.mp hm with old | new
      · exact inv.results c old
      · rw [mem_singleton.mp new]
        simp
    · have hk := inv.producer
      cases hpu : s.producer <;> rw [hpu] at hk
      case writing => exact ⟨hk.1, hk.2.trans (by simp only [hg]; omega)⟩
      case storing => exact ⟨hk.1, hk.2.1.trans (by simp only [hg]; omega), hk.2.2⟩
      all_goals exact hk

end

/-- **The lock-free queue.** In every interleaving of one pushing and one popping thread, the popped
items are the first of the pushed ones, at most 31 are in the queue, the slot that is about to be
written holds no unread item, a pop has returned false for the end item and for no other, and while
the queue is neither full nor empty both threads can take their next step. -/
theorem lockfree_fifo {α : Type} [DecidableEq α] {eof : α} {state : LockfreeQueue α}
    (reached : (lockfreeQueue eof).Reachable state) :
    state.popped.map Prod.fst <+: state.pushed ∧ state.contents.length ≤ 31 ∧
    (∀ x slot, state.producer = .writing x slot → ¬ state.Unread slot) ∧
    (∀ call ∈ state.popped, call.2 = false ↔ call.1 = eof) ∧
    (state.contents ≠ [] → state.contents.length < 31 →
      (∀ x, (state.step eof (.push x)).isSome) ∧ (state.step eof .pop).isSome) := by
  have inv : LockfreeInv eof state := by
    refine reached.invariant _ ?_ fun state ac a inv ht => ?_
    · rintro _ ⟨ar, rfl⟩
      exact ⟨⟨rfl, rfl, le_rfl, Nat.lt_of_sub_eq_succ rfl, nofun, rfl, nofun⟩, trivial, trivial⟩
    · cases ac with
      | push x => exact push_lockfree inv ht
      | pop => exact pop_lockfree inv ht
  have length : state.contents.length = state.pushed.length - state.popped.length := length_drop
  have hh := inv.high
  simp only [size] at hh
  refine ⟨inv.popped ▸ take_prefix .., by omega, fun x slot hp => ?_, inv.results, fun hfi hr => ?_⟩
  · have hk := inv.producer
    rw [hp] at hk
    obtain ⟨rfl, hr⟩ : slot = state.tail ∧ _ := hk
    exact inv.not_unread hr
  · have hs := length_pos_iff.mpr hfi
    constructor
    · intro x
      have hk := inv.producer
      simp only [step, push]
      cases hp : state.producer <;> rw [hp] at hk
      case full =>
        obtain rfl := hk
        have hf : (state.tail + 1) % size ≠ state.head :=
          fun hfu => by have := inv.full_iff.mp hfu; simp only [size] at this; omega
        simp [hf]
      all_goals rfl
    · have hk := inv.consumer
      simp only [step, pop]
      cases hp : state.consumer <;> rw [hp] at hk
      case empty =>
        obtain rfl := hk
        have hfi : state.head ≠ state.tail := fun he => by have := inv.empty_iff.mp he; omega
        simp [hfi]
      all_goals rfl

/-- An item and the end item are pushed, and the item is popped while the second push is under
way. -/
theorem lockfree_fifo_two : ∃ state, (lockfreeQueue 0).Reachable state ∧ state.pushed = [7, 0] ∧
    state.popped = [(7, true)] ∧
    (∀ x, (state.step 0 (.push x)).isSome) ∧ (state.step 0 .pop).isSome := by
  have run : ∃ state, (lockfreeQueue 0).Run (fun _ _ => True) [.push 7, .push 7, .pop, .push 7,
    .push 7, .pop, .push 0, .pop, .push 0, .pop, .push 0, .push 0] state ∧
      state.pushed = [7, 0] ∧ state.popped = [(7, true)] ∧ state.contents ≠ [] ∧
          state.contents.length < 31 :=
    ⟨_, Machine.Run.of_follow (.initial fun _ => 0) ⟨_, rfl⟩ (by exact rfl), by decide⟩
  obtain ⟨state, run, pushed, popped, hf, hr⟩ := run
  exact ⟨state, ⟨_, run⟩, pushed, popped, (lockfree_fifo ⟨_, run⟩).2.2.2.2 hf hr⟩

end Proteus.Platform
