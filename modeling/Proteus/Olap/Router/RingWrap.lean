/-
**Too many pops.**

Tickets repeat after `2 ^ 31`. A pop with the first ticket that is held up keeps the ring from going
further than one round; with `2 ^ 31 - 65534` popping threads the others reach the same ticket
nevertheless: one of them pops the rest of the round, and then each takes a ticket and waits.

* `ticket_mistaken` — the last of them returns the item of the first.
-/

import Proteus.Olap.Router.RingRuns

namespace Proteus.Olap.Router

open Library Function RingBuffer

section

variable {ι α : Type} [DecidableEq ι] {b : α} {s : RingRun ι α} {p : ι}

theorem fill_write {r : RingBuffer α} {t : Nat} {x : α} :
    (r.write t x).fill t ((r.write t x).itemAt t) = r.fill t x := by
  simp [fill, write, itemAt]

variable (reached : (ringRun ι b).Reachable s)

include reached

open RingRun

theorem reach_emplace (hi : s.emplacer = .idle) (he : s.ring.mayFill s.ring.head = true) (x : α) :
    ∃ a, (ringRun ι b).Reachable a ∧ a.emplacer = .idle ∧ a.poppers = s.poppers ∧
      a.ring = { s.ring with head := s.ring.head + 1 }.fill s.ring.head x ∧
      a.emplaced = s.emplaced ++ [x] := by
  have hs : { s.ring with head := s.ring.head + 1 }.mayFill s.ring.head = true := he
  refine ⟨{ s with
      ring := { s.ring with head := s.ring.head + 1 }.fill s.ring.head x
      emplacer := .idle
      emplaced := s.emplaced ++ [x] },
    reached.follow (List.replicate 4 (.emplace x)) ?_, rfl, rfl, rfl, rfl⟩
  simp [List.replicate, step, emplace, hi, hs, fill_write]

theorem reach_ticket (p : ι) (hi : s.poppers p = .idle) :
    ∃ a, (ringRun ι b).Reachable a ∧ a.emplacer = s.emplacer ∧
      a.poppers = update s.poppers p (.ticket s.ring.tail) ∧
      a.ring = { s.ring with tail := s.ring.tail + 1 } ∧ a.emplaced = s.emplaced := by
  refine ⟨{ s with
      ring := { s.ring with tail := s.ring.tail + 1 }
      poppers := update s.poppers p (.ticket s.ring.tail) },
    reached.follow [.pop p, .proceed p] ?_, rfl, rfl, rfl, rfl⟩
  simp [step, proceed, hi, goto]

theorem reach_return {t : Nat} (hw : s.poppers p = .ticket t) (hf : s.ring.mayTake t = true) :
    ∃ a, (ringRun ι b).Reachable a ∧ a.emplacer = s.emplacer ∧
      a.poppers = update s.poppers p .idle ∧ a.ring = s.ring.take t ∧
      a.emplaced = s.emplaced ∧ a.returned = s.returned ++ [(t, s.ring.itemAt t)] := by
  refine ⟨{ s with
      ring := s.ring.take t
      poppers := update s.poppers p .idle
      returned := s.returned ++ [(t, s.ring.itemAt t)] },
    reached.follow (List.replicate 3 (.proceed p)) ?_, rfl, rfl, rfl, rfl, rfl⟩
  simp [List.replicate, step, proceed, hw, hf, goto]

end

/-! ### The run -/

abbrev Crowd : Type := Fin (2 ^ 31 - 65534)

def nthPopper (number : Nat) (low : number < 2 ^ 31 - 65534) : Crowd := ⟨number, low⟩

structure RingLap (count : Nat) (state : RingRun Crowd Unit) : Prop where
  reached : (ringRun Crowd ()).Reachable state
  emplacer : state.emplacer = .idle
  stalled : state.poppers (nthPopper 0 (by decide)) = .ticket 0
  idle : ∀ popper ≠ nthPopper 0 (by decide), state.poppers popper = .idle
  head : state.ring.head = count + 1
  tail : state.ring.tail = count + 1
  first : (state.ring.slots (slotOf 0)).marker = 1
  even : ∀ ticket, count < ticket → ticket < ringSlots →
    (state.ring.slots (slotOf ticket)).marker % 2 = 0
  emplaced : state.emplaced.length = count + 1

theorem ringLap_start : ∃ s, RingLap 0 s := by
  have hr : (ringRun Crowd ()).Reachable (.initial Crowd ()) := .start rfl
  obtain ⟨_, hr, hem, hp, hri, he⟩ := reach_ticket hr (nthPopper 0 (by decide)) rfl
  obtain ⟨s, hr, hi, hs, hf, hc⟩ := reach_emplace hr hem (by rw [hri]; decide) ()
  rw [hri] at hf
  replace hf : s.ring = fill { head := 1, tail := 1, slots := (initial ()).slots } 0 () := hf
  rw [hp] at hs
  refine ⟨s, hr, hi, ?_, fun p ho => ?_, ?_, ?_, ?_, fun t hl low => ?_, ?_⟩
  · rw [hs, update_self]
    rfl
  · rw [hs, update_of_ne ho]
    rfl
  · rw [hf]
    rfl
  · rw [hf]
    rfl
  · rw [hf]
    exact congrArg Entry.marker fill_same
  · rw [hf, fill_other (slotOf_ne hl low).symm]
    show (indexCount - 2) % 2 = 0
    decide
  · rw [hc, he]
    rfl

/-- **One lap.** -/
theorem RingLap.next {c : Nat} {s : RingRun Crowd Unit} (lap : RingLap c s)
    (hr : c + 1 < ringSlots) : ∃ a, RingLap (c + 1) a := by
  have he : s.ring.mayFill s.ring.head = true := by
    rw [mayFill, lap.head, lap.even _ (Nat.lt_succ_self _) hr]
    rfl
  have ha : nthPopper 0 (by decide) ≠ nthPopper 1 (by decide) := by decide
  have hi := lap.idle (nthPopper 1 (by decide)) ha.symm
  obtain ⟨_, hre, her, hp, hf, hem⟩ := reach_emplace lap.reached lap.emplacer he ()
  obtain ⟨_, hre, her', hp', hri, hem'⟩ := reach_ticket hre _ ((congrFun hp _).trans hi)
  rw [hf, lap.head] at hri
  rw [hp, hf] at hp'
  obtain ⟨a, hre, her'', hp'', ht, hem'', _⟩ := reach_return hre (t := c + 1)
    (by rw [hp', update_self, ← lap.tail]; rfl)
    (by rw [hri]; exact beq_iff_eq.mpr (congrArg Entry.marker fill_same))
  rw [hri] at ht
  rw [hp', update_idem, ← hi, update_eq_self] at hp''
  have hk : ∀ ti, slotOf ti ≠ slotOf (c + 1) →
      a.ring.slots (slotOf ti) = s.ring.slots (slotOf ti) := by
    intro ti ho
    rw [ht, take_other ho]
    exact fill_other ho
  refine ⟨a, hre, ?_, ?_, ?_, ?_, ?_, ?_, fun ti hl low => ?_, ?_⟩
  · rw [her'', her', her]
  · rw [hp'', lap.stalled]
  · rw [hp'']
    exact lap.idle
  · rw [ht]
    rfl
  · rw [ht, ← lap.tail]
    rfl
  · rw [hk 0 (slotOf_ne (Nat.succ_pos c) hr)]
    exact lap.first
  · rw [hk ti (slotOf_ne hl low).symm]
    exact lap.even ti (Nat.lt_of_succ_lt hl) low
  · rw [hem'', hem', hem, List.length_append, lap.emplaced]
    rfl

theorem ringLap_round : ∃ s, RingLap (ringSlots - 1) s := by
  have hl : ∀ c < ringSlots, ∃ s, RingLap c s := by
    intro c low
    induction c with
    | zero => exact ringLap_start
    | succ c ih =>
      obtain ⟨_, lap⟩ := ih (Nat.lt_of_succ_lt low)
      exact lap.next low
  exact hl _ (by decide)

/-- After the round, `count` of the threads have a ticket and wait. -/
structure QueuedUp (count : Nat) (state : RingRun Crowd Unit) : Prop where
  reached : (ringRun Crowd ()).Reachable state
  idle : ∀ popper : Crowd, count < popper.val → state.poppers popper = .idle
  tail : state.ring.tail = ringSlots + count
  first : (state.ring.slots (slotOf 0)).marker = 1
  emplaced : state.emplaced.length = ringSlots

theorem queuedUp (c : Nat) (low : c < 2 ^ 31 - 65534) : ∃ s, QueuedUp c s := by
  induction c with
  | zero =>
    obtain ⟨s, lap⟩ := ringLap_round
    refine ⟨s, lap.reached, fun p hl => lap.idle p ?_, lap.tail, lap.first, lap.emplaced⟩
    rintro rfl
    exact hl.ne rfl
  | succ c ih =>
    obtain ⟨s, hq⟩ := ih (Nat.lt_of_succ_lt low)
    obtain ⟨a, hr, _, hp, hri, he⟩ :=
      reach_ticket hq.reached _ (hq.idle (nthPopper (c + 1) low) (Nat.lt_succ_self c))
    refine ⟨a, hr, fun p hl => ?_, ?_, ?_, ?_⟩
    · have ho : p ≠ nthPopper (c + 1) low := fun hs => by rw [hs] at hl; exact hl.ne rfl
      rw [hp, update_of_ne ho]
      exact hq.idle p (Nat.lt_of_succ_lt hl)
    · rw [hri, hq.tail]
      rfl
    · rw [hri]
      exact hq.first
    · rw [he, hq.emplaced]

/-- With `2 ^ 31 - 65534` popping threads, and so fewer than `2 ^ 31` pops at any time, a pop
returns the item of another: there were `65536` items, and the pop with ticket `2 ^ 31` has
returned. -/
theorem ticket_mistaken : ∃ state : RingRun (Fin (2 ^ 31 - 65534)) Unit,
    (ringRun (Fin (2 ^ 31 - 65534)) ()).Reachable state ∧ state.emplaced.length = 65536 ∧
    ∃ call ∈ state.returned, call.1 = 2 ^ 31 ∧ state.emplaced[call.1]? ≠ some call.2 := by
  obtain ⟨state, hq⟩ := queuedUp (2 ^ 31 - 65536) (by decide)
  obtain ⟨_, hr, _, hp, hri, emplaced⟩ :=
    reach_ticket hq.reached _ (hq.idle (nthPopper (2 ^ 31 - 65535) (by decide)) (by decide))
  obtain ⟨a, hr, _, _, _, hc, returned⟩ := reach_return hr (t := 2 ^ 31)
    (by rw [hp, update_self, hq.tail]; rfl)
    (by
      rw [hri, mayTake, show slotOf (2 ^ 31) = slotOf 0 from rfl]
      exact beq_iff_eq.mpr hq.first)
  have length : a.emplaced.length = 65536 := by rw [hc, emplaced, hq.emplaced]; rfl
  refine ⟨a, hr, length, (2 ^ 31, ()), ?_, rfl, ?_⟩
  · rw [returned]
    exact List.mem_append_right _ (List.mem_singleton_self _)
  · rw [List.getElem?_eq_none (by rw [length]; decide)]
    rintro ⟨⟩

end Proteus.Olap.Router
