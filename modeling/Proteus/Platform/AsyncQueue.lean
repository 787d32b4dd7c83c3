/-
**The queue between threads** (`platform/util/async_containers.hpp`, `AsyncQueueSPSC`).

Producers push under a lock. The consumer takes one element under the lock and moves up to eight
more to a cache of its own, from which it pops without the lock; the cache is a stack that is filled
from the top, so that elements still leave in order. `close` sets a flag, with which a `pop` from an
empty queue returns `false`, and waits until both the queue and the cache are empty. A wait for a
condition is a step that is taken when the condition holds.

* `AsyncQueue.contents` — what is in the queue, in the order of the pops.
* `contents_pop`, `pop_eq_none_iff` — a pop takes the first of it, ends at the end, or waits.
-/

import Mathlib.Data.List.Basic

namespace Proteus.Platform

open List

variable {α : Type}

/-- `AsyncQueueSPSC`; the first `cacheSize` entries of the cache are in use. -/
structure AsyncQueue (α : Type) where
  data : List α
  terminating : Bool
  cacheSize : Nat
  cacheData : Nat → α

namespace AsyncQueue

/-- `reset` of a new queue. -/
def initial (blank : α) : AsyncQueue α := ⟨[], false, 0, fun _ => blank⟩

def push (queue : AsyncQueue α) (x : α) : AsyncQueue α := { queue with data := queue.data ++ [x] }

def fillCache (toRetrieve : Nat) (retrieved : List α) (cacheData : Nat → α) : Nat → α :=
    fun place =>
  retrieved.getD (toRetrieve - place - 1) (cacheData place)

/-- `pop`: whether it returns an element, and the queue then; `none` where it waits. -/
def pop (queue : AsyncQueue α) : Option (Option α × AsyncQueue α) :=
  if 0 < queue.cacheSize then
    some (some (queue.cacheData (queue.cacheSize - 1)),
      { queue with cacheSize := queue.cacheSize - 1 })
  else
    match queue.data with
    | x :: data =>
      let toRetrieve := min data.length 8
      some (some x, { queue with
        data := data.drop toRetrieve
        cacheSize := toRetrieve
        cacheData := fillCache toRetrieve (data.take toRetrieve) queue.cacheData })
    | [] => if queue.terminating then some (none, queue) else none

/-- `close`, up to its wait. -/
def startClose (queue : AsyncQueue α) : AsyncQueue α := { queue with terminating := true }

/-- `empty_unsafe`, and what `close` waits for. -/
def isEmpty (queue : AsyncQueue α) : Bool := queue.cacheSize == 0 && queue.data.isEmpty

/-- What is in the queue, in the order of the pops. -/
def contents (queue : AsyncQueue α) : List α :=
  (List.range queue.cacheSize).reverse.map queue.cacheData ++ queue.data

variable {q : AsyncQueue α}

@[simp]
theorem contents_initial (b : α) : (initial b).contents = [] := rfl

@[simp]
theorem contents_push (x : α) : (q.push x).contents = q.contents ++ [x] :=
  (append_assoc ..).symm

theorem isEmpty_iff : q.isEmpty = true ↔ q.contents = [] := by
  simp [isEmpty, contents]

theorem map_fillCache (r : List α) (cd : Nat → α) :
    (List.range r.length).reverse.map (fillCache r.length r cd) =
    r := by
  refine ext_getElem (by simp) fun i low hh => ?_
  have hp : r.length - (r.length - 1 - i) - 1 = i := by omega
  simp [fillCache, getElem_reverse, hp, List.getElem?_eq_getElem hh]

/-- **A pop takes the first element**, or ends a closed queue that is empty. -/
theorem contents_pop {r : Option α} {a : AsyncQueue α} (hp : q.pop = some (r, a)) :
    q.contents = r.toList ++ a.contents ∧ a.terminating = q.terminating ∧
      (r = none → q.terminating = true ∧ q.contents = [] ∧ a = q) := by
  rw [pop] at hp
  by_cases hc : 0 < q.cacheSize
  · rw [if_pos hc] at hp
    cases hp
    refine ⟨?_, rfl, by nofun⟩
    obtain ⟨sz, hs⟩ : ∃ sz, q.cacheSize = sz + 1 := ⟨q.cacheSize - 1, by omega⟩
    simp [contents, hs, range_succ]
  · rw [if_neg hc] at hp
    have hu : q.cacheSize = 0 := by omega
    cases hh : q.data with
    | nil =>
      simp only [hh] at hp
      split at hp
      · cases hp
        have he : q.contents = [] := by simp [contents, hu, hh]
        exact ⟨by simp, rfl, fun _ => ⟨by assumption, he, rfl⟩⟩
      · cases hp
    | cons x d =>
      simp only [hh] at hp
      cases hp
      refine ⟨?_, rfl, by nofun⟩
      have hf := map_fillCache (d.take (min d.length 8)) q.cacheData
      rw [length_take, Nat.min_eq_left (Nat.min_le_left ..)] at hf
      simp only [contents, hu, hh, hf, range_zero, reverse_nil, map_nil,
        nil_append, Option.toList_some, singleton_append, take_append_drop]

theorem pop_eq_none_iff : q.pop = none ↔ q.contents = [] ∧ q.terminating = false := by
  rw [pop]
  by_cases hc : 0 < q.cacheSize
  · have : q.contents ≠ [] := by simp [contents]; omega
    simp [hc, this]
  · have hu : q.cacheSize = 0 := by omega
    cases hh : q.data with
    | nil | cons x d => simp [contents, hu, hh]

end AsyncQueue

end Proteus.Platform
