/-
**Too many producers.**

The 32 bits of a ticket repeat after `2 ^ 31` tickets. A producer that has seen the marker of its
slot and is held up there keeps the ring from going further than one round; with `2 ^ 31 - 65534`
producers the others reach the same ticket nevertheless: all but one of the tickets of the round are
used up by one of them, and then each of the others takes one and waits.

* `Lap.again` — one producer takes a ticket, and its buffer comes back to the pool.
* `queueUp` — producers take tickets one after the other.
* `buffer_acquired_twice` — the last of them takes the buffer of the first.
-/

import Proteus.Library.Reachable
import Proteus.Olap.Router.RouterRuns

namespace Proteus.Olap.Router

open Library Platform Option Function RouterState RingBuffer

section

variable {c : RouterConfig} {α : Type} {s : RouterState c α} {p : Fin c.producers}
  {target ta : Fin c.fanout} {t : Nat} (reached : (router c α).Reachable s)

include reached

theorem reach_acquire (hi : s.producers p = .idle) (ta : Fin c.fanout) :
    ∃ a, (router c α).Reachable a ∧ a.producers = update s.producers p
        (.acquiring ta (.ticket (s.targets ta).freePool.tail)) ∧
      a.targets ta = { s.targets ta with
        freePool :=
          { (s.targets ta).freePool with tail := (s.targets ta).freePool.tail + 1 } } := by
  refine ⟨(s.setTarget ta _).setProducer p _,
    reached.follow [.acquire p ta, .proceed p] ?_, rfl, targets_setTarget⟩
  simp [step, proceed, hi, popStep, setProducer, setTarget]

theorem reach_check (hw : s.producers p = .acquiring ta (.ticket t))
    (hf : (s.targets ta).freePool.mayTake t = true) :
    ∃ a, (router c α).Reachable a ∧
      a.producers = update s.producers p (.acquiring ta (.checked t)) ∧
      a.targets ta = s.targets ta := by
  refine ⟨(s.setTarget ta _).setProducer p _, reached.follow [.proceed p] ?_, rfl,
    targets_setTarget⟩
  simp [step, proceed, hw, popStep, hf]

theorem reach_take (hc : s.producers p = .acquiring ta (.checked t)) :
    ∃ a, (router c α).Reachable a ∧ a.producers = update s.producers p
        (.holding ta ((s.targets ta).freePool.itemAt t)) ∧
      a.targets ta = { s.targets ta with freePool := (s.targets ta).freePool.take t } := by
  refine ⟨(s.setTarget ta _).setProducer p _, reached.follow [.proceed p] ?_, rfl,
    targets_setTarget⟩
  simp [step, proceed, hc, popStep]

/-- **A round trip up to the queue**: a producer acquires a buffer and releases it. -/
theorem reach_give (hi : s.producers p = .idle)
    (ht : (s.targets ta).freePool.tail = t) (hf : (s.targets ta).freePool.mayTake t = true) :
    ∃ a, (router c α).Reachable a ∧ a.producers = s.producers ∧
      (a.targets ta).firer = (s.targets ta).firer ∧
      (a.targets ta).freePool = { (s.targets ta).freePool with tail := t + 1 }.take t ∧
      (a.targets ta).readyFifo =
        (s.targets ta).readyFifo.push ((s.targets ta).freePool.itemAt t) := by
  have hs : { (s.targets ta).freePool with tail := t + 1 }.mayTake t = true := hf
  refine ⟨s.setTarget ta { s.targets ta with
      freePool := { (s.targets ta).freePool with tail := t + 1 }.take t
      readyFifo := (s.targets ta).readyFifo.push ((s.targets ta).freePool.itemAt t)
      released := (s.targets ta).released ++
        [(s.targets ta).memory ((s.targets ta).freePool.itemAt t)] },
    reached.follow ([.acquire p ta] ++ List.replicate 3 (.proceed p) ++ [.release p]) ?_,
    rfl, ?_, ?_, ?_⟩
  · simp [List.replicate, step, proceed, release, hi, popStep, ht, hs,
      setProducer, setTarget, itemAt]
  all_goals rw [targets_setTarget]

omit reached

/-- Some steps of a firer. -/
def fireSteps (slack : Nat) : Nat → Target α → Option (Target α)
  | 0, target => some target
  | steps + 1, target => (fireStep slack target).bind (fireSteps slack steps)

theorem reach_fires (reached : (router c α).Reachable s) {ss : Nat} {f : Target α}
    (hf : fireSteps c.slack ss (s.targets ta) = some f) :
    ∃ a, (router c α).Reachable a ∧ a.producers = s.producers ∧ a.targets ta = f := by
  induction ss generalizing s with
  | zero => exact ⟨s, reached, rfl, some.inj hf⟩
  | succ ss ih =>
    obtain ⟨n, hh, hr⟩ := bind_eq_some_iff.mp hf
    have ht : s.step (.fire ta) = some (s.setTarget ta n) := by
      rw [step, hh]
      rfl
    obtain ⟨a, reached, producers, hl⟩ := ih (reached.next ht) (by rwa [targets_setTarget])
    exact ⟨a, reached, producers, hl⟩

theorem fireSteps_consume {s b : Nat} {h : Target α} {readyFifo : AsyncQueue Nat}
    (hr : h.firer = .ready) (hp : h.readyFifo.pop = some (some b, readyFifo))
    (he : h.freePool.mayFill h.freePool.head = true) :
    fireSteps s 5 h = some { h with
      freePool := ({ h.freePool with head := h.freePool.head + 1 }).fill h.freePool.head b
      readyFifo
      consumed := h.consumed ++ [h.memory b] } := by
  have hes : ({ h.freePool with head := h.freePool.head + 1 } : RingBuffer Nat).mayFill
    h.freePool.head = true := he
  simp only [fireSteps, fireStep, hr, hp, map_some, getD_some, bind_some,
    emplaceStep, hes, if_true, map_none, getD_none]

end

open Multiset

theorem two_holders {c : RouterConfig} {α : Type} {s : RouterState c α}
    {fr se : Fin c.producers} {t : Fin c.fanout} {b : Nat}
    (hd : fr ≠ se)
    (one : s.producers fr = .holding t b)
    (ho : s.producers se = .holding t b) :
    (s.targets t).freePool.free + s.held t + ((s.targets t).readyFifo.contents : Multiset Nat) +
        (s.targets t).firer.holds c.slack ≠ range c.slack := by
  have hh : ∀ p, s.producers p = .holding t b → b ∈ (s.producers p).heldAt t := by
    intro p hp
    rw [hp, Producer.heldAt, if_pos rfl]
    exact mem_singleton_self _
  have hpa : ∀ f h r fi : Multiset Nat, h ≤ f + h + r + fi :=
    fun _ _ _ _ => (le_add_left _ _).trans ((le_add_right _ _).trans (le_add_right _ _))
  intro hpr
  refine not_nodup_gather hd (hh fr one) (hh se ho) ?_
  refine nodup_of_le ?_ (nodup_range c.slack)
  rw [← hpr]
  exact hpa _ _ _ _

/-! ### The run -/

section

/-- One target with two buffers, and one producer more than the tickets allow. -/
def crowded : RouterConfig := ⟨1, 2 ^ 31 - 65534, 2, by decide, by decide⟩

def only : Fin crowded.fanout := ⟨0, by decide⟩

/-- The producer with a number. -/
def nth (number : Nat) (low : number < 2 ^ 31 - 65534) : Fin crowded.producers := ⟨number, low⟩

structure Lap (count : Nat) (state : RouterState crowded Nat) : Prop where
  stalled : state.producers (nth 0 (by decide)) = .acquiring only (.checked 0)
  idle : ∀ producer ≠ nth 0 (by decide), state.producers producer = .idle
  ready : (state.targets only).firer = .ready
  empty : (state.targets only).readyFifo.contents = []
  head : (state.targets only).freePool.head = count + 2
  tail : (state.targets only).freePool.tail = count + 1
  first : (state.targets only).freePool.slots (slotOf 0) = ⟨1, 0⟩
  next : (state.targets only).freePool.slots (slotOf (count + 1)) = ⟨filledMarker (count + 1), 1⟩
  even : ∀ ticket, count + 1 < ticket → ticket < ringSlots →
    ((state.targets only).freePool.slots (slotOf ticket)).marker % 2 = 0

theorem pop_push {q : AsyncQueue Nat} (he : q.contents = []) (b : Nat) :
    ∃ a, (q.push b).pop = some (some b, a) ∧ a.contents = [] := by
  have hc : (q.push b).contents = [b] := by
    rw [AsyncQueue.contents_push, he, List.nil_append]
  cases hp : (q.push b).pop with
  | none =>
    rw [AsyncQueue.pop_eq_none_iff, hc] at hp
    cases hp.1
  | some f =>
    obtain ⟨hs, _, hl⟩ := AsyncQueue.contents_pop hp
    rw [hc] at hs hl
    cases hr : f.1 with
    | none => cases (hl hr).2.1
    | some fi =>
      rw [hr, toList_some, List.singleton_append, List.cons.injEq] at hs
      refine ⟨f.2, ?_, hs.2.symm⟩
      rw [← hr.trans (congrArg some hs.1.symm)]

variable {count ct : Nat} {state st : RouterState crowded Nat}

theorem Lap.give (lap : Lap ct st) (hr : (router crowded Nat).Reachable st) :
    ∃ a, (router crowded Nat).Reachable a ∧ a.producers = st.producers ∧
      (a.targets only).firer = .ready ∧
      (a.targets only).freePool = { (st.targets only).freePool with tail := ct + 2 }.take (ct + 1) ∧
      (a.targets only).readyFifo = (st.targets only).readyFifo.push 1 := by
  have hf : (st.targets only).freePool.mayTake (ct + 1) = true := by
    rw [mayTake, lap.next]
    exact beq_self_eq_true _
  obtain ⟨a, hr, hpr, hfi, hp, hq⟩ :=
    reach_give hr (lap.idle (nth 1 (by decide)) (by decide)) lap.tail hf
  rw [itemAt, lap.next] at hq
  exact ⟨a, hr, hpr, hfi.trans lap.ready, hp, hq⟩

/-- **One lap.** -/
theorem Lap.again (lap : Lap ct st) (hre : (router crowded Nat).Reachable st)
    (hr : ct + 2 < ringSlots) : ∃ a, (router crowded Nat).Reachable a ∧ Lap (ct + 1) a := by
  obtain ⟨m, hre, hpr, hf, hpo, hq⟩ := lap.give hre
  have hhe : (m.targets only).freePool.head = ct + 2 := by
    rw [hpo]
    exact lap.head
  obtain ⟨tl, hp, he⟩ := pop_push lap.empty 1
  have hev : (m.targets only).freePool.mayFill (m.targets only).freePool.head = true := by
    rw [hhe, hpo]
    exact mayFill_take (beq_iff_eq.mpr (lap.even _ (Nat.lt_succ_self _) hr))
  obtain ⟨a, hre, hpr', hh⟩ := reach_fires hre
    (fireSteps_consume hf (hq ▸ hp) hev : fireSteps crowded.slack 5 _ = _)
  rw [hhe, hpo] at hh
  rw [hpr] at hpr'
  have hk : ∀ t, slotOf t ≠ slotOf (ct + 1) → slotOf t ≠ slotOf (ct + 2) →
      (a.targets only).freePool.slots (slotOf t) = (st.targets only).freePool.slots (slotOf t) := by
    intro t hd ho
    rw [hh]
    exact (fill_other ho).trans (take_other hd)
  refine ⟨a, hre, ?_, ?_, ?_, ?_, ?_, ?_, ?_, ?_, fun t hl low => ?_⟩
  · rw [hpr', lap.stalled]
  · rw [hpr']
    exact lap.idle
  · rw [hh]
    exact hf
  · rw [hh]
    exact he
  · rw [hh]
    rfl
  · rw [hh]
    rfl
  · rw [hk 0 (slotOf_ne (by omega) (by omega)) (slotOf_ne (by omega) hr)]
    exact lap.first
  · rw [hh]
    exact fill_same
  · rw [hk t (slotOf_ne (by omega) low).symm (slotOf_ne hl low).symm]
    exact lap.even t (by omega) low

/-- **The start**: both buffers are in the pool, and the first producer has seen that its slot is
filled. -/
theorem lap_start : ∃ state, (router crowded Nat).Reachable state ∧ Lap 0 state := by
  have hb : (router crowded Nat).Reachable (.initial crowded 0) := .start ⟨0, rfl⟩
  have hf : fireSteps crowded.slack 7 ((initial crowded 0).targets only) =
    some ⟨fill ⟨2, 0, ((initial 0).fill 0 0).slots⟩ 1 1, .initial 0, .ready, fun _ => 0,
      [], []⟩ := rfl
  obtain ⟨f, hr, hp, hh⟩ := reach_fires hb hf
  have hi : f.producers (nth 0 (by decide)) = .idle := by rw [hp]; rfl
  obtain ⟨w, hr, hpw, hhw⟩ := reach_acquire hr hi only
  rw [hh] at hhw hpw
  obtain ⟨state, hr, hps, hhs⟩ := reach_check hr (by rw [hpw, update_self]) (by rw [hhw]; decide)
  rw [hhw] at hhs
  refine ⟨state, hr, ?_, fun p ho => ?_, ?_, ?_, ?_, ?_, ?_, ?_, fun t hl low => ?_⟩
  · rw [hps, update_self]
    rfl
  · rw [hps, update_of_ne ho, hpw, update_of_ne ho, hp]
    rfl
  · rw [hhs]
  · rw [hhs]
    rfl
  · rw [hhs]
    rfl
  · rw [hhs]
    rfl
  · rw [hhs]
    rfl
  · rw [hhs]
    rfl
  · rw [hhs]
    show ((((initial 0).fill 0 0).fill 1 1).slots (slotOf t)).marker % 2 = 0
    rw [fill_other (slotOf_ne hl low).symm, fill_other (slotOf_ne (Nat.lt_of_succ_lt hl) low).symm]
    show (indexCount - 2) % 2 = 0
    decide

theorem laps (hr : ct + 1 < ringSlots) : ∃ state, (router crowded Nat).Reachable state ∧
    Lap ct state := by
  induction ct with
  | zero => exact lap_start
  | succ ct ih =>
    obtain ⟨_, hre, lap⟩ := ih (Nat.lt_of_succ_lt hr)
    exact lap.again hre hr

structure Queued (count : Nat) (state : RouterState crowded Nat) : Prop where
  stalled : state.producers (nth 0 (by decide)) = .acquiring only (.checked 0)
  idle : ∀ producer : Fin crowded.producers, count < producer.val → state.producers producer = .idle
  last : ∀ producer : Fin crowded.producers, 0 < producer.val → producer.val = count →
    state.producers producer = .acquiring only (.ticket (ringSlots + count - 1))
  tail : (state.targets only).freePool.tail = ringSlots + count
  first : (state.targets only).freePool.slots (slotOf 0) = ⟨1, 0⟩

theorem queued_start : ∃ state, (router crowded Nat).Reachable state ∧ Queued 0 state := by
  obtain ⟨state, hr, lap⟩ := laps (show ringSlots - 2 + 1 < ringSlots by decide)
  obtain ⟨a, hr, hpr, _, hpo, _⟩ := lap.give hr
  refine ⟨a, hr, ?_, fun p hl => ?_, fun p hp hz => ?_, ?_, ?_⟩
  · rw [hpr, lap.stalled]
  · rw [hpr]
    exact lap.idle p (Fin.ne_of_val_ne hl.ne')
  · exact absurd hz hp.ne'
  · rw [hpo]
    rfl
  · rw [hpo, take_other (slotOf_ne (by decide) (by decide))]
    exact lap.first

/-- **Producers queue up.** -/
theorem queueUp (hr : ct < crowded.producers) :
    ∃ state, (router crowded Nat).Reachable state ∧ Queued ct state := by
  induction ct with
  | zero => exact queued_start
  | succ ct ih =>
    obtain ⟨state, hre, hq⟩ := ih (Nat.lt_of_succ_lt hr)
    obtain ⟨a, hre, hp, hh⟩ := reach_acquire hre (hq.idle ⟨ct + 1, hr⟩ (Nat.lt_succ_self _)) only
    refine ⟨a, hre, ?_, fun p hl => ?_, fun p _ hs => ?_, ?_, ?_⟩
    · rw [hp, update_of_ne (Fin.ne_of_val_ne (Nat.succ_ne_zero ct).symm), hq.stalled]
    · rw [hp, update_of_ne (Fin.ne_of_val_ne hl.ne'), hq.idle _ (Nat.lt_of_succ_lt hl)]
    · obtain rfl : p = ⟨ct + 1, hr⟩ := Fin.ext hs
      rw [hp, update_self, hq.tail]
      rfl
    · rw [hh, hq.tail]
      rfl
    · rw [hh]
      exact hq.first

/-- **A buffer is acquired twice.** With `2 ^ 31 - 65534` producers, the last of them gets the
buffer of the first, which has seen the marker of its slot before and takes it as well. -/
theorem buffer_acquired_twice : ∃ (actions : List (RouterAction crowded Nat))
    (state : RouterState crowded Nat), (router crowded Nat).Run (fun _ _ => True) actions state ∧
      state.producers (nth 0 (by decide)) = .holding only 0 ∧
      state.producers (nth (2 ^ 31 - 65535) (by decide)) = .holding only 0 ∧
      (state.targets only).freePool.free + state.held only +
      ((state.targets only).readyFifo.contents : Multiset Nat) +
          (state.targets only).firer.holds crowded.slack ≠ Multiset.range crowded.slack := by
  obtain ⟨c, hr, hq⟩ := queueUp (show 2 ^ 31 - 65535 < crowded.producers by decide)
  have hd : nth 0 (by decide) ≠ nth (2 ^ 31 - 65535) (by decide) := Fin.ne_of_val_ne (by decide)
  have hw : c.producers (nth (2 ^ 31 - 65535) (by decide)) = .acquiring only (.ticket (2 ^ 31)) :=
    hq.last _ (by decide) rfl
  have hs : slotOf (2 ^ 31) = slotOf 0 := slotOf_eq_iff.mpr (by decide)
  obtain ⟨s, hr, hps, hhs⟩ := reach_check hr hw (by
    rw [mayTake, hs, hq.first]
    decide)
  obtain ⟨held, hr, hph, hhh⟩ := reach_take hr (by rw [hps, update_self])
  have hi : (s.targets only).freePool.itemAt (2 ^ 31) = 0 := by
    rw [itemAt, hs, hhs, hq.first]
  rw [hi, hps, update_idem] at hph
  obtain ⟨l, ⟨actions, run⟩, hpl, _⟩ := reach_take hr (by rw [hph, update_of_ne hd, hq.stalled])
  have hia : (held.targets only).freePool.itemAt 0 = 0 := by
    rw [hhh]
    show ((s.targets only).freePool.take (2 ^ 31)).itemAt 0 = 0
    rw [itemAt, ← hs, take_same]
    exact hi
  rw [hia] at hpl
  have one : l.producers (nth 0 (by decide)) = .holding only 0 := by
    rw [hpl, update_self]
  have ho : l.producers (nth (2 ^ 31 - 65535) (by decide)) = .holding only 0 := by
    rw [hpl, update_of_ne hd.symm, hph, update_self]
  exact ⟨actions, l, run, one, ho, two_holders hd one ho⟩

end

end Proteus.Olap.Router
