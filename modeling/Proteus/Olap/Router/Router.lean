/-
**The router** (`olap/lib/operators/router/router.cpp`).

Producers acquire a buffer of a target from its pool, fill it, and release it into the ready queue
of the target. Each target has a firer: it puts its buffers into the pool, takes ready ones in turn,
consumes them and frees them, and when its queue has ended closes its pipeline and collects all its
buffers. The last producer that closes closes the queues, one after the other, and waits for the
firers.

A step is what the code does between two accesses to shared state: a ticket, a look at a marker, a
copy with its new marker, an operation under the lock of a queue.

* `popStep`, `emplaceStep`, `fireStep` — the steps of `pop`, of `emplace` and of `fire`.
* `router` — the machine of all producers and firers.
-/

import Proteus.Library.Machine
import Proteus.Olap.Router.RingBuffer
import Proteus.Platform.AsyncQueue

namespace Proteus.Olap.Router

open Library Platform

structure RouterConfig where
  fanout : Nat
  producers : Nat
  slack : Nat
  slack_pos : 1 ≤ slack
  slack_le : slack ≤ 64 * 1024

/-! ### Threads -/

inductive Emplace where
  | start
  | ticket (h : Nat)
  | checked (h : Nat)
deriving DecidableEq

/-- How far a `pop` is. -/
inductive Pop where
  | start
  | ticket (t : Nat)
  | checked (t : Nat)
deriving DecidableEq

inductive Firer where
  | filling (j : Nat) (emplace : Emplace)
  | ready
  | consuming (buffer : Nat)
  | freeing (buffer : Nat) (emplace : Emplace)
  | closing
  | draining (acquired : List Nat) (pop : Pop)
  | finished (acquired : List Nat)
deriving DecidableEq

def Firer.isFinished : Firer → Bool
  | .finished _ => true
  | _ => false

/-- Where a producer is. The one that closes the queues is before or in the `close` of one of them,
or waits for the firers. -/
inductive Producer (fanout : Nat) where
  | idle
  | acquiring (target : Fin fanout) (pop : Pop)
  | holding (target : Fin fanout) (buffer : Nat)
  | closing (next : Nat)
  | waiting (target : Fin fanout)
  | joining
  | closed
deriving DecidableEq

structure Target (α : Type) where
  freePool : RingBuffer Nat
  readyFifo : AsyncQueue Nat
  firer : Firer
  memory : Nat → α
  released : List α
  consumed : List α

structure RouterState (config : RouterConfig) (α : Type) where
  producers : Fin config.producers → Producer config.fanout
  targets : Fin config.fanout → Target α
  remainingProducers : Int

/-! ### Steps of one thread -/

def emplaceStep (pool : RingBuffer Nat) (buffer : Nat) : Emplace →
    Option (RingBuffer Nat × Option Emplace)
  | .start => some ({ pool with head := pool.head + 1 }, some (.ticket pool.head))
  | .ticket h => if pool.mayFill h then some (pool, some (.checked h)) else none
  | .checked h => some (pool.fill h buffer, none)

def popStep (pool : RingBuffer Nat) : Pop → Option (RingBuffer Nat × (Pop ⊕ Nat))
  | .start => some ({ pool with tail := pool.tail + 1 }, .inl (.ticket pool.tail))
  | .ticket t => if pool.mayTake t then some (pool, .inl (.checked t)) else none
  | .checked t => some (pool.take t, .inr (pool.itemAt t))

section

variable {α : Type}

/-- A step of `fire`. -/
def fireStep (slack : Nat) (target : Target α) : Option (Target α) :=
  match target.firer with
  | .filling j emplace =>
    if j < slack then
      (emplaceStep target.freePool j emplace).map fun (freePool, rest) =>
        { target with freePool, firer := (rest.map (Firer.filling j)).getD (.filling (j + 1) .start)
          }
    else some { target with firer := .ready }
  | .ready =>
    target.readyFifo.pop.map fun (ready, readyFifo) =>
      { target with readyFifo, firer := (ready.map Firer.consuming).getD .closing }
  | .consuming buffer =>
    some { target with
      consumed := target.consumed ++ [target.memory buffer]
      firer := .freeing buffer .start }
  | .freeing buffer emplace =>
    (emplaceStep target.freePool buffer emplace).map fun (freePool, rest) =>
      { target with freePool, firer := (rest.map (Firer.freeing buffer)).getD .ready }
  | .closing => some { target with firer := .draining [] .start }
  | .draining acquired pop =>
    if acquired.length < slack then
      (popStep target.freePool pop).map fun (freePool, rest) =>
        { target with
          freePool
          firer := rest.elim (Firer.draining acquired) fun buffer =>
            .draining (acquired ++ [buffer]) .start }
    else some { target with firer := .finished acquired }
  | .finished _ => none

end

/-! ### The machine -/

inductive RouterAction (config : RouterConfig) (α : Type) where
  | poll (producer : Fin config.producers) (target : Fin config.fanout)
  | acquire (producer : Fin config.producers) (target : Fin config.fanout)
  | proceed (producer : Fin config.producers)
  | fill (producer : Fin config.producers) (item : α)
  | release (producer : Fin config.producers)
  | close (producer : Fin config.producers)
  | fire (target : Fin config.fanout)

namespace RouterState

variable {config : RouterConfig} {α : Type} (state : RouterState config α)

/-- `open` -/
def initial (config : RouterConfig) (blank : α) : RouterState config α where
  producers := fun _ => .idle
  targets := fun _ => ⟨.initial 0, .initial 0, .filling 0 .start, fun _ => blank, [], []⟩
  remainingProducers := config.producers

def setProducer (producer : Fin config.producers) (phase : Producer config.fanout) :
    RouterState config α :=
  { state with producers := Function.update state.producers producer phase }

def setTarget (target : Fin config.fanout) (next : Target α) : RouterState config α :=
  { state with targets := Function.update state.targets target next }

variable {state} {target t : Fin config.fanout} {next n : Target α}

theorem targets_setTarget : (state.setTarget t n).targets t = n := Function.update_self ..

theorem targets_setTarget_of_ne {o : Fin config.fanout} (hd : o ≠ t) :
    (state.setTarget t n).targets o = state.targets o := Function.update_of_ne hd _ _

theorem terminating_setTarget
    (hs : n.readyFifo.terminating = (state.targets t).readyFifo.terminating)
    (o : Fin config.fanout) : ((state.setTarget t n).targets o).readyFifo.terminating =
      (state.targets o).readyFifo.terminating := by
  by_cases hh : o = t
  · rw [hh, targets_setTarget, hs]
  · rw [targets_setTarget_of_ne hh]

variable (state)

def joined : Bool := decide (∀ target, (state.targets target).firer.isFinished = true)

/-- The steps of a producer in `acquireBuffer` and in `close`. -/
def proceed (producer : Fin config.producers) : Option (RouterState config α) :=
  match state.producers producer with
  | .acquiring target pop =>
    (popStep (state.targets target).freePool pop).map fun (freePool, rest) =>
      (state.setTarget target { state.targets target with freePool }).setProducer producer
        (rest.elim (.acquiring target) (.holding target))
  | .closing next =>
    if low : next < config.fanout then
      let target := state.targets ⟨next, low⟩
      some ((state.setTarget ⟨next, low⟩
        { target with readyFifo := target.readyFifo.startClose }).setProducer
        producer (.waiting ⟨next, low⟩))
    else some (state.setProducer producer .joining)
  | .waiting target =>
    if (state.targets target).readyFifo.isEmpty then
      some (state.setProducer producer (.closing (target + 1)))
    else none
  | .joining => if state.joined then some (state.setProducer producer .closed) else none
  | _ => none

def fill (producer : Fin config.producers) (item : α) : Option (RouterState config α) :=
  match state.producers producer with
  | .holding target buffer =>
    some (state.setTarget target { state.targets target with
      memory := Function.update (state.targets target).memory buffer item })
  | _ => none

/-- `releaseBuffer` -/
def release (producer : Fin config.producers) : Option (RouterState config α) :=
  match state.producers producer with
  | .holding target buffer =>
    some ((state.setTarget target { state.targets target with
      readyFifo := (state.targets target).readyFifo.push buffer
      released := (state.targets target).released ++ [(state.targets target).memory buffer]
        }).setProducer
        producer .idle)
  | _ => none

/-- The count at the beginning of `close`. -/
def close (producer : Fin config.producers) : Option (RouterState config α) :=
  if state.producers producer = .idle then
    let rem := state.remainingProducers - 1
    some ({ state with remainingProducers := rem }.setProducer producer
      (if rem = 0 then .closing 0 else .closed))
  else none

/-- A step of one thread, if it need not wait. An `acquireBuffer` either finds nothing, or begins to
pop. -/
def step : RouterAction config α → Option (RouterState config α)
  | .poll producer target =>
    if state.producers producer = .idle ∧ (state.targets target).freePool.isEmpty = true then
      some state
    else none
  | .acquire producer target =>
    if state.producers producer = .idle then
      some (state.setProducer producer (.acquiring target .start))
    else none
  | .proceed producer => state.proceed producer
  | .fill producer item => state.fill producer item
  | .release producer => state.release producer
  | .close producer => state.close producer
  | .fire target => (fireStep config.slack (state.targets target)).map (state.setTarget target)

end RouterState

/-- The router. -/
def router (config : RouterConfig) (α : Type) :
    Machine (RouterState config α) (RouterAction config α) where
  Start := fun state => ∃ blank, state = .initial config blank
  Enabled := fun state action => (state.step action).isSome = true
  next := RouterState.step

end Proteus.Olap.Router
