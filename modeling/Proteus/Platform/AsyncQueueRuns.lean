/-
**The queue between threads, step by step** (`platform/util/async_containers.hpp`,
`AsyncQueueSPSC`).

Any number of threads push, one pops and one closes. A section under the lock is one step, and so is
a pop from the cache; between them a thread can be asleep in `cv.wait`, from which it wakes by a
notification or by itself.

* `step_queueRun` — what each step keeps.
* `queue_closes` — first in, first out, and a close that returns.
-/

import Proteus.Library.Reachable
import Proteus.Platform.AsyncQueue

namespace Proteus.Platform

open Library List Option

inductive Popper where
  | idle
  | locking
  | asleep
  | notifying
  | finished
deriving DecidableEq

/-- Where `close` is: not called, asleep, before the lock, or returned. -/
inductive Closer where
  | uncalled
  | asleep
  | locking
  | returned
deriving DecidableEq

structure QueueRun (ι α : Type) where
  queue : AsyncQueue α
  notifying : ι → Bool := fun _ => false
  popper : Popper := .idle
  closer : Closer := .uncalled
  pushed : List α := []
  popped : List α := []

/-- The next step of a thread, and the two wake-ups that nobody sent. -/
inductive QueueAction (ι α : Type) where
  | push (thread : ι) (x : α)
  | notify (thread : ι)
  | pop
  | close
  | wakePopper
  | wakeCloser

def QueueAction.isPop {ι α : Type} : QueueAction ι α → Bool
  | .pop => true
  | _ => false

namespace QueueRun

variable {ι α : Type} [Fintype ι] [DecidableEq ι] (state : QueueRun ι α)

def wakePopper : QueueRun ι α := { state with popper := if state.popper = .asleep then .locking else
    state.popper }

def wakeCloser : QueueRun ι α := { state with closer := if state.closer = .asleep then .locking else
    state.closer }

def take : QueueRun ι α :=
  match state.queue.pop with
  | some (some x, queue) => { state with queue, popper := .idle, popped := state.popped ++ [x] }
  | some (none, queue) => { state with queue, popper := .notifying }
  | none => { state with popper := .asleep }

def pop : Option (QueueRun ι α) :=
  match state.popper with
  | .idle =>
      some (if 0 < state.queue.cacheSize then state.take else { state with popper := .locking })
  | .locking => some state.take
  | .notifying => some { state.wakeCloser with popper := .finished }
  | .asleep | .finished => none

def closeTest : QueueRun ι α := { state with closer := if state.queue.isEmpty then .returned else
    .asleep }

/-- `close` is called when every push has returned. -/
def close : Option (QueueRun ι α) :=
  match state.closer with
  | .uncalled =>
    if ∀ thread, state.notifying thread = false then
      some { state.wakePopper with queue := state.queue.startClose, closer := .locking }.closeTest
    else none
  | .locking => some state.closeTest
  | .asleep | .returned => none

/-- Nothing is pushed once `close` is called, so that `notify_one` can wake nobody but the popping
thread. -/
def step : QueueAction ι α → Option (QueueRun ι α)
  | .push thread x =>
    if state.notifying thread = false ∧ state.closer = .uncalled then
      some { state with
        queue := state.queue.push x
        notifying := Function.update state.notifying thread true
        pushed := state.pushed ++ [x] }
    else none
  | .notify thread =>
    if state.notifying thread = true then
      some { state.wakePopper with notifying := Function.update state.notifying thread false }
    else none
  | .pop => state.pop
  | .close => state.close
  | .wakePopper => if state.popper = .asleep then some state.wakePopper else none
  | .wakeCloser => if state.closer = .asleep then some state.wakeCloser else none

/-- The steps of the popping thread that are to come once `close` is called. -/
def remaining : Nat :=
  2 * state.queue.contents.length + match state.popper with
    | .idle => 3
    | .locking => 2
    | .notifying => 1
    | .asleep | .finished => 0

end QueueRun

/-- A queue that starts empty. -/
def queueRun (ι : Type) [Fintype ι] [DecidableEq ι] {α : Type} (blank : α) :
    Machine (QueueRun ι α) (QueueAction ι α) :=
  .ofStep (· = { queue := .initial blank }) QueueRun.step

/-! ### What each step keeps -/

open QueueRun

section

variable {ι α : Type}

structure QueueInv (state : QueueRun ι α) : Prop where
  fifo : state.popped ++ state.queue.contents = state.pushed
  terminating : state.queue.terminating = true ↔ state.closer ≠ .uncalled
  quiet : state.closer ≠ .uncalled → ∀ thread, state.notifying thread = false
  awake : state.closer ≠ .uncalled → state.popper ≠ .asleep
  ended : state.popper = .notifying ∨ state.popper = .finished →
    state.closer ≠ .uncalled ∧ state.queue.contents = []
  finished : state.popper = .finished → state.closer ≠ .asleep

variable {s af : QueueRun ι α}

theorem QueueInv.wakePopper (inv : QueueInv s) : QueueInv s.wakePopper := by
  rw [QueueRun.wakePopper]
  split_ifs with ha
  · exact { inv with awake := fun _ => nofun, ended := nofun, finished := nofun }
  · exact inv

theorem QueueInv.wakeCloser (inv : QueueInv s) : QueueInv s.wakeCloser := by
  rw [QueueRun.wakeCloser]
  split_ifs with ha
  · have hc : s.closer ≠ .uncalled := by rw [ha]; nofun
    exact {
      fifo := inv.fifo
      terminating := iff_of_true (inv.terminating.mpr hc) nofun
      quiet := fun _ => inv.quiet hc
      awake := fun _ => inv.awake hc
      ended := fun hp => ⟨nofun, (inv.ended hp).2⟩
      finished := nofun }
  · exact inv

theorem popper_wakePopper : s.wakePopper.popper ≠ .asleep := by
  rw [wakePopper]
  split_ifs with ha
  · nofun
  · exact ha

theorem closer_wakeCloser : s.wakeCloser.closer ≠ .asleep := by
  rw [wakeCloser]
  split_ifs with ha
  · nofun
  · exact ha

theorem closer_closeTest : s.closeTest.closer ≠ .uncalled := by
  rw [closeTest]
  split_ifs <;> nofun

theorem QueueInv.closeTest (inv : QueueInv s) (hc : s.closer ≠ .uncalled) :
    QueueInv s.closeTest := by
  refine {
    fifo := inv.fifo
    terminating := iff_of_true (inv.terminating.mpr hc) closer_closeTest
    quiet := fun _ => inv.quiet hc
    awake := fun _ => inv.awake hc
    ended := fun hp => ⟨closer_closeTest, (inv.ended hp).2⟩
    finished := fun hp => ?_ }
  have he : s.queue.isEmpty = true := AsyncQueue.isEmpty_iff.mpr (inv.ended (.inr hp)).2
  simp [QueueRun.closeTest, he]

theorem QueueInv.take (inv : QueueInv s) : QueueInv s.take := by
  rw [QueueRun.take]
  split
  case h_1 x q hp =>
    obtain ⟨hco, hs, _⟩ := AsyncQueue.contents_pop hp
    have hf : (s.popped ++ [x]) ++ q.contents = s.pushed := by
      rw [← inv.fifo, hco, append_assoc, toList_some]
    exact { inv with
      fifo := hf, terminating := by rw [hs]; exact inv.terminating, awake := fun _ => nofun,
        ended := nofun,
      finished := nofun }
  case h_2 q hp =>
    obtain ⟨_, _, hl⟩ := AsyncQueue.contents_pop hp
    obtain ⟨ht, he, rfl⟩ := hl rfl
    exact { inv with
      awake := fun _ => nofun, ended := fun _ => ⟨inv.terminating.mp ht, he⟩, finished := nofun }
  case h_3 hw =>
    have hr : s.queue.terminating ≠ true := by rw [(AsyncQueue.pop_eq_none_iff.mp hw).2]; nofun
    exact { inv with
      awake := fun hc => absurd (inv.terminating.mpr hc) hr, ended := nofun, finished := nofun }

theorem remaining_take (inv : QueueInv s) (hc : s.closer ≠ .uncalled)
    (hr : s.popper = .idle ∨ s.popper = .locking) :
    s.take.closer ≠ .uncalled ∧ s.take.remaining < s.remaining := by
  have hm : 2 * s.queue.contents.length + 2 ≤ s.remaining := by
    rcases hr with hp | hp <;> simp [QueueRun.remaining, hp]
  rw [QueueRun.take]
  split
  case h_1 x q hpo =>
    obtain ⟨hco, _⟩ := AsyncQueue.contents_pop hpo
    refine ⟨hc, lt_of_lt_of_le ?_ hm⟩
    simp only [QueueRun.remaining, hco, toList_some, length_append, length_singleton]
    omega
  case h_2 q hpo =>
    obtain ⟨_, _, hl⟩ := AsyncQueue.contents_pop hpo
    obtain ⟨_, _, rfl⟩ := hl rfl
    exact ⟨hc, lt_of_lt_of_le (Nat.lt_succ_self _) hm⟩
  case h_3 hw =>
    have hr := (AsyncQueue.pop_eq_none_iff.mp hw).2
    rw [inv.terminating.mpr hc] at hr
    cases hr

variable [DecidableEq ι] [Fintype ι] {a : QueueAction ι α}

/-- **One step.** -/
theorem step_queueRun (inv : QueueInv s) (ht : s.step a = some af) : QueueInv af := by
  cases a with
  | push t x =>
    obtain ⟨⟨_, hu⟩, ⟨⟩⟩ := ite_none_right_eq_some.mp ht
    exact {
      fifo := by simp only [AsyncQueue.contents_push, ← inv.fifo, append_assoc]
      terminating := inv.terminating
      quiet := fun hc => absurd hu hc
      awake := inv.awake
      ended := fun hp => absurd hu (inv.ended hp).1
      finished := inv.finished }
  | notify t =>
    obtain ⟨_, ⟨⟩⟩ := ite_none_right_eq_some.mp ht
    have hw := inv.wakePopper
    refine { hw with quiet := fun hc => ?_ }
    exact (Function.forall_update_iff _ fun _ n => n = false).mpr ⟨rfl, fun o _ => inv.quiet hc o⟩
  | pop =>
    simp only [step, pop] at ht
    cases hp : s.popper <;> simp only [hp, reduceCtorEq] at ht
    case idle =>
      cases ht
      split_ifs
      · exact inv.take
      · exact { inv with awake := fun _ => nofun, ended := nofun, finished := nofun }
    case locking =>
      cases ht
      exact inv.take
    case notifying =>
      cases ht
      have hw := inv.wakeCloser
      exact { hw with
        awake := fun _ => nofun, ended := fun _ => hw.ended (.inl hp), finished := fun _ =>
          closer_wakeCloser }
  | close =>
    simp only [step, close] at ht
    cases hp : s.closer <;> simp only [hp, reduceCtorEq] at ht
    case uncalled =>
      obtain ⟨hq, ⟨⟩⟩ := ite_none_right_eq_some.mp ht
      have hw := inv.wakePopper
      have hc : QueueInv { s.wakePopper with queue := s.queue.startClose, closer := .locking } := {
        fifo := hw.fifo
        terminating := iff_of_true rfl nofun
        quiet := fun _ => hq
        awake := fun _ => popper_wakePopper
        ended := fun hp => ⟨nofun, (hw.ended hp).2⟩
        finished := nofun }
      exact hc.closeTest nofun
    case locking =>
      cases ht
      exact inv.closeTest (by rw [hp]; nofun)
  | wakePopper =>
    obtain ⟨_, ⟨⟩⟩ := ite_none_right_eq_some.mp ht
    exact inv.wakePopper
  | wakeCloser =>
    obtain ⟨_, ⟨⟩⟩ := ite_none_right_eq_some.mp ht
    exact inv.wakeCloser

variable (inv : QueueInv s) (called : s.closer ≠ .uncalled)

include inv called

/-! ### After `close` is called -/

theorem remaining_step (ht : s.step a = some af) :
    af.closer ≠ .uncalled ∧ (if a.isPop then 1 else 0) + af.remaining ≤ s.remaining := by
  cases a with
  | push t x =>
    obtain ⟨⟨_, uncalled⟩, _⟩ := ite_none_right_eq_some.mp ht
    exact absurd uncalled called
  | notify t =>
    obtain ⟨hn, _⟩ := ite_none_right_eq_some.mp ht
    rw [inv.quiet called t] at hn
    cases hn
  | pop =>
    simp only [step, pop] at ht
    rw [if_pos (by rfl), Nat.add_comm]
    cases hp : s.popper <;> simp only [hp, reduceCtorEq] at ht
    case idle =>
      cases ht
      split_ifs
      · exact remaining_take inv called (.inl hp)
      · exact ⟨called, by simp [remaining, hp]⟩
    case locking =>
      cases ht
      exact remaining_take inv called (.inr hp)
    case notifying =>
      cases ht
      refine ⟨(inv.wakeCloser.ended (.inl hp)).1, ?_⟩
      simp [remaining, wakeCloser, hp]
  | close =>
    simp only [step, close] at ht
    cases hp : s.closer <;> simp only [hp, reduceCtorEq] at ht
    case uncalled => exact absurd hp called
    case locking =>
      cases ht
      exact ⟨closer_closeTest, (Nat.zero_add _).le⟩
  | wakePopper =>
    obtain ⟨ha, _⟩ := ite_none_right_eq_some.mp ht
    exact absurd ha (inv.awake called)
  | wakeCloser =>
    obtain ⟨ha, ⟨⟩⟩ := ite_none_right_eq_some.mp ht
    exact ⟨by simp [wakeCloser, ha], (Nat.zero_add _).le⟩

/-- **Any number of steps** after `close` is called. -/
theorem remaining_path {b : α} {acs : List (QueueAction ι α)} {l : QueueRun ι α}
    (hp : (queueRun ι b).Path (fun _ _ => True) s acs l) :
    QueueInv l ∧ l.closer ≠ .uncalled ∧
        acs.countP QueueAction.isPop + l.remaining ≤ s.remaining := by
  induction hp with
  | nil => exact ⟨inv, called, (Nat.zero_add _).le⟩
  | cons _ _ ht _ ih =>
    obtain ⟨hca, hn⟩ := remaining_step inv called ht
    obtain ⟨inv, hcl, hb⟩ := ih (step_queueRun inv ht) hca
    refine ⟨inv, hcl, ?_⟩
    rw [countP_cons]
    omega

end

/-- **The queue.** In every interleaving of any number of pushing threads, one popping thread and a
close after the last push: what was popped and what is in the queue is what was pushed, in the order
of the lock; a pop returns false only after `close`, when everything was popped; and from where
`close` is called, whatever steps are taken, the popping thread takes a bounded number of steps and
can always take the next until it has seen false, and from then on `close` has returned or returns
with its next step, which it can take. -/
theorem queue_closes {ι α : Type} [Fintype ι] [DecidableEq ι] {blank : α} {state : QueueRun ι α}
    (reached : (queueRun ι blank).Reachable state) :
    state.popped ++ state.queue.contents = state.pushed ∧
    (state.popper = .notifying ∨ state.popper = .finished → state.closer ≠ .uncalled ∧
      state.popped = state.pushed) ∧
    (state.closer ≠ .uncalled → ∀ actions last,
    (queueRun ι blank).Path (fun _ _ => True) state actions last →
      actions.countP QueueAction.isPop ≤ state.remaining ∧
      (last.popper = .finished ∨ (last.step .pop).isSome) ∧
      (last.popper = .finished → last.closer = .returned ∨
        ∃ after, last.step .close = some after ∧ after.closer = .returned)) := by
  have inv : QueueInv state := reached.invariant _
    (by rintro _ rfl; exact ⟨rfl, iff_of_false nofun (absurd rfl), fun _ _ => rfl, nofun, nofun,
      nofun⟩)
    fun _ _ _ inv ht => step_queueRun inv ht
  refine ⟨inv.fifo, fun hen => ⟨(inv.ended hen).1, ?_⟩, fun hc actions last hpa => ?_⟩
  · rw [← inv.fifo, (inv.ended hen).2, append_nil]
  · obtain ⟨inv, hc, hb⟩ := remaining_path inv hc hpa
    refine ⟨by omega, ?_, fun finished => ?_⟩
    · have ha := inv.awake hc
      simp only [step, pop]
      cases hp : last.popper <;> simp_all
    · have he : last.queue.isEmpty = true :=
        AsyncQueue.isEmpty_iff.mpr (inv.ended (.inr finished)).2
      have ha := inv.finished finished
      cases hp : last.closer with
      | uncalled => exact absurd hp hc
      | asleep => exact absurd hp ha
      | locking =>
        refine .inr ⟨last.closeTest, ?_, ?_⟩
        · simp only [step, close, hp]
        · simp only [closeTest, he, if_true]
      | returned => exact .inl rfl

/-- Two threads push, and the popping thread takes the second element from its cache while `close`
sleeps. -/
theorem queue_closes_two : ∃ state, (queueRun (Fin 2) 0).Reachable state ∧ state.popped = [7, 9] ∧
    state.closer ≠ .uncalled ∧ state.popped = state.pushed ∧ (state.closer = .returned ∨
        ∃ after, state.step .close = some after ∧ after.closer = .returned) := by
  have run : ∃ state, (queueRun (Fin 2) 0).Run (fun _ _ => True) [.pop, .pop, .push 1 7, .push 0 9,
    .notify 0, .notify 1, .pop, .close, .pop, .wakeCloser, .close, .pop, .pop, .pop] state ∧
      state.popped = [7, 9] ∧ state.popper = .finished ∧ state.closer ≠ .uncalled :=
    ⟨_, Machine.Run.of_follow _ (by exact rfl) (by exact rfl), by decide⟩
  obtain ⟨state, run, popped, hf, hc⟩ := run
  obtain ⟨_, he, hr⟩ := queue_closes ⟨_, run⟩
  exact ⟨state, ⟨_, run⟩, popped, hc, (he (.inr hf)).2, (hr hc [] state .nil).2.2 hf⟩

end Proteus.Platform
