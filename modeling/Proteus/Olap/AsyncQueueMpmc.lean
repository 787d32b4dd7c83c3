/-
**The queue of a router's consumers** (`olap/lib/util/datastructures/threadsafe-set.hpp`,
`AsyncQueueMPMC`).

One thread emplaces and any number of threads pop, over a ring of `8 * 1024` slots with sequence
numbers. A pop reserves an index and waits for its sequence number. `emplace` waits until the pop of
the item that was in its slot has reserved its index, and not until it has moved the item out: a pop
that is a whole round behind finds its item overwritten.

* `step_mpmc` — what each step keeps while no pop is a round behind.
* `mpmc_delivers` — nothing is lost then; `item_overwritten` — and otherwise it is.
-/

import Proteus.Library.Dispenser
import Proteus.Library.Reachable

namespace Proteus.Olap

open Library List Function

/-- Where `emplace` is: not called, at the wait for `occrev`, before the store to `first`, before
the store to `second`. -/
inductive MpmcEmplace (α : Type) where
  | idle
  | waiting (locc : Nat) (item : α)
  | cleared (locc : Nat) (item : α)
  | written (locc : Nat) (item : α)

/-- The index for which `emplace` is at its wait. -/
def MpmcEmplace.awaits {α : Type} : MpmcEmplace α → Option Nat
  | .waiting locc _ => some locc
  | _ => none

/-- Where a pop is: not called, at the test of `second`, before the item is moved out. -/
inductive MpmcPop where
  | idle
  | testing (reserve : Nat)
  | moving (reserve : Nat)
deriving DecidableEq

def MpmcPop.reserved : MpmcPop → Option Nat
  | .idle => none
  | .testing reserve | .moving reserve => some reserve

structure AsyncQueueMpmc (ι α : Type) where
  occ : Nat
  occrev : Nat
  first : Nat → α
  second : Nat → Nat
  emplacer : MpmcEmplace α
  poppers : ι → MpmcPop
  emplaced : List α
  returned : List (Nat × α)

/-- The next step of the emplacing thread, with the item of a new call, and that of a popping
thread. -/
inductive MpmcAction (ι α : Type) where
  | emplace (item : α)
  | pop (popper : ι)

namespace AsyncQueueMpmc

variable {ι α : Type}

/-- `N` -/
def slots : Nat := 8 * 1024

/-- The values of `size_t`. -/
def sizeCount : Nat := 2 ^ 64

def initial (ι : Type) (blank : α) : AsyncQueueMpmc ι α :=
  ⟨0, 0, fun _ => blank, fun _ => sizeCount - 1, .idle, fun _ => .idle, [], []⟩

variable (state : AsyncQueueMpmc ι α)

def emplace (item : α) : Option (AsyncQueueMpmc ι α) :=
  match state.emplacer with
  | .idle => some { state with
      occ := (state.occ + 1) % sizeCount
      emplacer := .waiting state.occ item
      emplaced := state.emplaced ++ [item] }
  | .waiting locc item =>
    if (state.occrev + slots) % sizeCount ≤ locc then none else
      some { state with emplacer := .cleared locc item }
  | .cleared locc item => some { state with
      first := Function.update state.first (locc % slots) item
      emplacer := .written locc item }
  | .written locc _ => some { state with
      second := Function.update state.second (locc % slots) locc
      emplacer := .idle }

variable [DecidableEq ι]

def goto (popper : ι) (phase : MpmcPop) : AsyncQueueMpmc ι α :=
  { state with poppers := Function.update state.poppers popper phase }

def pop (popper : ι) : Option (AsyncQueueMpmc ι α) :=
  match state.poppers popper with
  | .idle =>
    some ({ state with occrev := (state.occrev + 1) % sizeCount }.goto popper
      (.testing state.occrev))
  | .testing reserve =>
    if state.second (reserve % slots) = reserve then some (state.goto popper (.moving reserve)) else
      none
  | .moving reserve => some ({ state with
      returned := state.returned ++ [(reserve, state.first (reserve % slots))] }.goto popper .idle)

def step : MpmcAction ι α → Option (AsyncQueueMpmc ι α)
  | .emplace item => state.emplace item
  | .pop popper => state.pop popper

/-- The indices of the pops under way. -/
def pending : ι → Option Nat := MpmcPop.reserved ∘ state.poppers

/-- How many items are in their slots, or were. -/
def filled : Nat :=
  match state.emplacer with
  | .idle => state.occ
  | .waiting locc _ | .cleared locc _ | .written locc _ => locc

/-- The counters are not used up, and `emplace` leaves its wait when no pop under way is a whole
round behind. -/
def Careful : MpmcAction ι α → Prop
  | .emplace _ => state.occ < sizeCount - slots - 1 ∧
      ∀ locc ∈ state.emplacer.awaits, ∀ popper, ∀ reserve ∈ state.pending popper,
        locc < reserve + slots
  | .pop _ => state.occrev < sizeCount - slots - 1

instance [Fintype ι] : ∀ action, Decidable (state.Careful action)
  | .emplace _ => inferInstanceAs (Decidable (_ ∧ _))
  | .pop _ => inferInstanceAs (Decidable (_ < _))

end AsyncQueueMpmc

/-- A queue that starts empty and is not closed. -/
def asyncQueueMpmc (ι : Type) [DecidableEq ι] {α : Type} (blank : α) :
    Machine (AsyncQueueMpmc ι α) (MpmcAction ι α) :=
  .ofStep (· = .initial ι blank) fun state => state.step

/-! ### While no pop is a round behind -/

open AsyncQueueMpmc MpmcPop

section

variable {ι α : Type}

def Live (occrev filled : Nat) (pending : ι → Option Nat) (index : Nat) : Prop :=
  index < filled ∧ (occrev ≤ index ∨ ∃ popper, pending popper = some index)

def Clear (occrev : Nat) (pending : ι → Option Nat) (locc : Nat) : Prop :=
  locc < occrev + AsyncQueueMpmc.slots ∧ ∀ popper, ∀ reserve ∈ pending popper,
    locc < reserve + AsyncQueueMpmc.slots

def MpmcEmplace.Knows (state : AsyncQueueMpmc ι α) : MpmcEmplace α → Prop
  | .idle => True
  | .waiting locc item => state.occ = locc + 1 ∧ state.emplaced[locc]? = some item
  | .cleared locc item =>
    state.occ = locc + 1 ∧ state.emplaced[locc]? = some item ∧ Clear state.occrev state.pending locc
  | .written locc item =>
    state.occ = locc + 1 ∧ state.emplaced[locc]? = some item ∧
      Clear state.occrev state.pending locc ∧
      state.first (locc % AsyncQueueMpmc.slots) = item

structure MpmcInv (state : AsyncQueueMpmc ι α) : Prop where
  occ : state.occ = state.emplaced.length
  few : state.occrev + AsyncQueueMpmc.slots < AsyncQueueMpmc.sizeCount
  emplacer : state.emplacer.Knows state
  window : ∀ index, Live state.occrev state.filled state.pending index →
    state.filled ≤ index + AsyncQueueMpmc.slots
  data : ∀ index, Live state.occrev state.filled state.pending index →
    state.second (index % AsyncQueueMpmc.slots) = index ∧
    state.emplaced[index]? = some (state.first (index % AsyncQueueMpmc.slots))
  numbers : ∀ slot, state.second slot < state.filled ∨
    state.second slot = AsyncQueueMpmc.sizeCount - 1
  moving : ∀ popper reserve, state.poppers popper = .moving reserve → reserve < state.filled
  returned : ∀ call ∈ state.returned, state.emplaced[call.1]? = some call.2
  drawn : Dispenser state.occrev state.pending (state.returned.map Prod.fst)

variable {st af : AsyncQueueMpmc ι α} {x : α} {i l occrev : Nat} {p : ι → Option Nat}
    (live : Live occrev l p i) (clear : Clear occrev p l)

include live clear

theorem Live.near : l < i + slots := by
  rcases live.2 with hl | ⟨p, hr⟩
  · exact clear.1.trans_le (Nat.add_le_add_right hl _)
  · exact clear.2 p i hr

theorem Live.slot_ne : i % slots ≠ l % slots := by
  have hn := live.near clear
  have hl := live.1
  simp only [slots] at *
  omega

omit live clear

/-- **One step of `emplace`.** -/
theorem emplace_mpmc [DecidableEq ι] (inv : MpmcInv st) (hca : st.Careful (.emplace x))
    (ht : st.emplace x = some af) : MpmcInv af := by
  obtain ⟨occ, occrev, f, s, em, ps, e, r⟩ := st
  have hk := inv.emplacer
  have few := inv.few
  have hc : occ = e.length := inv.occ
  cases em with
  | idle =>
    have hr : occ < sizeCount - slots - 1 := hca.1
    have hn : (occ + 1) % sizeCount = occ + 1 := Nat.mod_eq_of_lt (by omega)
    simp only [emplace, hn, Option.some.injEq] at ht
    subst ht
    exact {
      occ := by rw [length_append, hc]; rfl
      few := few
      emplacer := ⟨rfl, by rw [hc, List.getElem?_concat_length]⟩
      window := inv.window
      data := fun index live =>
        ⟨(inv.data index live).1, getElem?_concat_of_some (inv.data index live).2⟩
      numbers := inv.numbers
      moving := inv.moving
      returned := fun c hm => getElem?_concat_of_some (inv.returned c hm)
      drawn := inv.drawn }
  | waiting locc x =>
    simp only [emplace, Nat.mod_eq_of_lt few] at ht
    obtain ⟨hfr, ⟨⟩⟩ := Option.ite_none_left_eq_some.mp ht
    exact { inv with emplacer := ⟨hk.1, hk.2, not_le.mp hfr, hca.2 locc rfl⟩ }
  | cleared locc x =>
    cases ht
    obtain ⟨hn, hf, clear⟩ := hk
    refine { inv with emplacer := ⟨hn, hf, clear, update_self ..⟩, data := fun index live => ?_ }
    refine ⟨(inv.data index live).1, (inv.data index live).2.trans (congrArg some ?_)⟩
    exact (update_of_ne (Live.slot_ne live clear) ..).symm
  | written locc x =>
    cases ht
    obtain ⟨hn, hf, clear, hh⟩ := hk
    have hn : occ = locc + 1 := hn
    subst hn
    -- what is live now was live before, or is the new item
    have hs : ∀ index, Live occrev (locc + 1) (reserved ∘ ps) index →
        index = locc ∨ Live occrev locc (reserved ∘ ps) index := fun index live =>
      (Nat.lt_succ_iff_lt_or_eq.mp live.1).symm.imp_right fun hl => ⟨hl, live.2⟩
    refine { inv with
      emplacer := trivial
      window := fun index live => ?_
      data := fun index live => ?_
      numbers := ?_
      moving := fun p re hp => (inv.moving p re hp).trans (Nat.lt_succ_self locc) }
    · rcases hs index live with rfl | hb
      · exact Nat.add_le_add_left (by decide) _
      · exact hb.near clear
    · rcases hs index live with rfl | hb
      · exact ⟨update_self .., hf.trans (congrArg some hh.symm)⟩
      · exact ⟨(update_of_ne (Live.slot_ne hb clear) ..).trans (inv.data index hb).1,
          (inv.data index hb).2⟩
    · exact (forall_update_iff s fun _ n => n < locc + 1 ∨ n = _).mpr
        ⟨.inl (Nat.lt_succ_self locc), fun sl _ => (inv.numbers sl).imp_left Nat.lt_succ_of_lt⟩

/-- **Some pop moves**, so that what is live was live before and what is clear stays clear. -/
theorem MpmcInv.withPoppers (inv : MpmcInv st) {poppers : ι → MpmcPop} {returned : List (Nat × α)}
    (few : occrev + slots < sizeCount)
    (clear : ∀ locc, Clear st.occrev st.pending locc → Clear occrev (reserved ∘ poppers) locc)
    (live : ∀ index, Live occrev st.filled (reserved ∘ poppers) index →
      Live st.occrev st.filled st.pending index)
    (moving : ∀ p re, poppers p = .moving re → re < st.filled)
    (hi : ∀ c ∈ returned, st.emplaced[c.1]? = some c.2)
    (drawn : Dispenser occrev (reserved ∘ poppers) (returned.map Prod.fst)) :
    MpmcInv { st with occrev, poppers, returned } := by
  refine { inv with
    few, moving, drawn, returned := hi, emplacer := ?_
    window := fun index now => inv.window index (live index now)
    data := fun index now => inv.data index (live index now) }
  have hk := inv.emplacer
  cases hp : st.emplacer <;> rw [hp] at hk
  case cleared => exact ⟨hk.1, hk.2.1, clear _ hk.2.2⟩
  case written => exact ⟨hk.1, hk.2.1, clear _ hk.2.2.1, hk.2.2.2⟩
  all_goals exact hk

theorem MpmcInv.found_iff (inv : MpmcInv st) {p : ι} {r : Nat} (hw : st.pending p = some r) :
    st.second (r % slots) = r ↔ r < st.filled := by
  refine ⟨fun hf => ?_, fun hl => (inv.data r ⟨hl, .inr ⟨p, hw⟩⟩).1⟩
  have hb := inv.drawn.below p r hw
  have few := inv.few
  rcases inv.numbers (r % slots) with hl | hu
  · exact hf ▸ hl
  · omega

variable [DecidableEq ι] {po : ι}

/-- **One step of a pop.** -/
theorem pop_mpmc (inv : MpmcInv st) (hc : st.Careful (.pop po))
    (ht : st.pop po = some af) : MpmcInv af := by
  have few := inv.few
  have ho : ∀ p : MpmcPop, (∀ r, p = .moving r → r < st.filled) →
      ∀ o r, update st.poppers po p o = .moving r → r < st.filled :=
    fun p hh => (forall_update_iff st.poppers fun _ p =>
      ∀ r, p = .moving r → r < st.filled).mpr ⟨hh, fun o _ => inv.moving o⟩
  have pending : ∀ p : MpmcPop, reserved ∘ update st.poppers po p =
    update st.pending po p.reserved := fun _ => comp_update ..
  rw [pop] at ht
  cases p : st.poppers po <;> simp only [p] at ht
  case idle =>
    simp only [AsyncQueueMpmc.Careful] at hc
    have hi : st.pending po = none := congrArg reserved p
    have hn : (st.occrev + 1) % sizeCount = st.occrev + 1 := Nat.mod_eq_of_lt (by omega)
    rw [hn, Option.some.injEq] at ht
    subst ht
    have hfi : st.occrev + 1 + slots < sizeCount := by omega
    refine inv.withPoppers hfi (fun locc clear => ?_) (fun index live => ?_)
      (ho _ nofun) inv.returned ?_
    · rw [pending]
      refine ⟨clear.1.trans_le (Nat.add_le_add_right (Nat.le_succ _) _), ?_⟩
      refine (forall_update_iff st.pending fun _ h =>
        ∀ r ∈ h, locc < r + slots).mpr ⟨?_, fun o _ => clear.2 o⟩
      rintro _ ⟨⟩
      exact clear.1
    · rw [pending] at live
      exact ⟨live.1, Dispenser.outstanding_of_draw live.2⟩
    · rw [pending]
      exact inv.drawn.draw hi
  case testing r =>
    obtain ⟨hf, ⟨⟩⟩ := Option.ite_none_right_eq_some.mp ht
    have hw := congrArg reserved p
    have hs : reserved ∘ update st.poppers po (.moving r) = st.pending := by
      rw [pending]
      exact update_eq_self_iff.mpr hw.symm
    refine inv.withPoppers few (fun _ => ?_) (fun _ => ?_) (ho _ ?_) inv.returned ?_
    · rw [hs]
      exact id
    · rw [hs]
      exact id
    · rintro _ ⟨⟩
      exact (inv.found_iff hw).mp hf
    · rw [hs]
      exact inv.drawn
  case moving r =>
    cases ht
    have hw := congrArg reserved p
    have live : Live st.occrev st.filled st.pending r := ⟨inv.moving po r p, .inr ⟨po, hw⟩⟩
    refine inv.withPoppers few (fun locc clear => ?_) (fun index live => ?_) (ho _ nofun)
      (fun c hm => ?_) ?_
    · rw [pending]
      exact ⟨clear.1, fun o r h => clear.2 o r (Dispenser.held_of_give h)⟩
    · rw [pending] at live
      exact ⟨live.1, Dispenser.outstanding_of_give live.2⟩
    · rcases mem_append.mp hm with old | new
      · exact inv.returned c old
      · rw [mem_singleton.mp new]
        exact (inv.data r live).2
    · rw [pending, map_append]
      exact inv.drawn.give hw

/-- **One step.** -/
theorem step_mpmc (inv : MpmcInv st) {a : MpmcAction ι α} (hc : st.Careful a)
    (ht : st.step a = some af) : MpmcInv af := by
  cases a with
  | emplace item => exact emplace_mpmc inv hc ht
  | pop popper => exact pop_mpmc inv hc ht

end

/-- **The queue loses nothing** in every run of one emplacing thread and any number of popping
threads in which no pop under way is a whole round behind when `emplace` leaves its wait, and in
which the counters are not used up: a pop that has returned has returned the item with its index, no
two with the same; the other indices that were reserved are those of pops under way, each of which
can go on as soon as its item is in its slot; and the slot that is about to be written holds no item
that was not returned. -/
theorem mpmc_delivers {ι α : Type} [DecidableEq ι] {blank : α} {actions : List (MpmcAction ι α)}
    {state : AsyncQueueMpmc ι α}
    (run : (asyncQueueMpmc ι blank).Run AsyncQueueMpmc.Careful actions state) :
    (∀ call ∈ state.returned, state.emplaced[call.1]? = some call.2) ∧
    (state.returned.map Prod.fst).Nodup ∧
    (∀ index < state.occrev, index ∈ state.returned.map Prod.fst ∨ ∃ popper,
      state.pending popper = some index) ∧
    (∀ popper reserve, state.poppers popper = .testing reserve →
    ((state.pop popper).isSome ↔ reserve < state.filled)) ∧
    (∀ locc item, state.emplacer = .cleared locc item →
      ∀ index < locc, index % AsyncQueueMpmc.slots = locc % AsyncQueueMpmc.slots →
        index ∈ state.returned.map Prod.fst) := by
  have inv : MpmcInv state := by
    refine run.invariant _ ?_ fun _ _ _ inv _ hc ht => step_mpmc inv hc ht
    rintro _ rfl
    exact ⟨rfl, (by decide : 0 + slots < _), trivial, fun _ hli => absurd hli.1 (Nat.not_lt_zero _),
      fun _ hli => absurd hli.1 (Nat.not_lt_zero _), fun _ => .inr rfl, nofun, nofun, .initial⟩
  refine ⟨inv.returned, inv.drawn.once, fun _ => inv.drawn.done_or_held, fun popper reserve hp =>
    ?_,
    fun locc item hp index hl hs => ?_⟩
  · have hw := congrArg reserved hp
    simp only [pop, hp]
    rw [← inv.found_iff hw]
    split_ifs with hf
    · exact iff_of_true rfl hf
    · exact iff_of_false nofun hf
  · have hk := inv.emplacer
    rw [hp] at hk
    have hm : ¬ Live state.occrev locc state.pending index := fun hli => hli.slot_ne hk.2.2 hs
    rw [Live, not_and, not_or, not_le] at hm
    obtain ⟨low, hfr⟩ := hm hl
    exact (inv.drawn.done_or_held low).resolve_right hfr

/-- A pop waits until its item is in its slot. -/
theorem mpmc_delivers_one : ∃ actions state,
    (asyncQueueMpmc (Fin 1) 0).Run AsyncQueueMpmc.Careful actions state ∧
    state.emplaced = [7] ∧ state.poppers 0 = .testing 0 ∧ (state.pop 0).isSome := by
  have run : ∃ state, (asyncQueueMpmc (Fin 1) 0).Run AsyncQueueMpmc.Careful [.pop 0, .emplace 7,
    .emplace 7,
      .emplace 7, .emplace 7] state ∧ state.emplaced = [7] ∧ state.poppers 0 = .testing 0 ∧
          0 < state.filled :=
    ⟨_, Machine.Run.of_follow _ (by exact rfl) (by exact rfl), by decide⟩
  obtain ⟨state, run, emplaced, hw, hf⟩ := run
  exact ⟨_, state, run, emplaced, hw, ((mpmc_delivers run).2.2.2.1 0 0 hw).mpr hf⟩

/-! ### A pop that is a round behind -/

theorem reach_emplace_mpmc {ι α : Type} [DecidableEq ι] {b : α} {s : AsyncQueueMpmc ι α}
    (hr : (asyncQueueMpmc ι b).Reachable s) (hi : s.emplacer = .idle)
    (hf : ¬ (s.occrev + slots) % sizeCount ≤ s.occ) (x : α) :
    (asyncQueueMpmc ι b).Reachable { s with
      occ := (s.occ + 1) % sizeCount
      first := update s.first (s.occ % slots) x
      second := update s.second (s.occ % slots) s.occ
      emplacer := .idle
      emplaced := s.emplaced ++ [x] } := by
  refine hr.follow (List.replicate 4 (.emplace x)) ?_
  simp [List.replicate, step, emplace, hi, hf]

theorem reach_round (c : Nat) (low : c ≤ slots) : ∃ s : AsyncQueueMpmc (Fin 1) Nat,
    (asyncQueueMpmc (Fin 1) 0).Reachable s ∧ s.emplacer = .idle ∧ s.poppers 0 = .testing 0 ∧
    s.occ = c ∧ s.occrev = 1 ∧ s.emplaced = List.range c ∧ s.returned = [] := by
  induction c with
  | zero => exact ⟨_, Machine.Reachable.follow (.start rfl) [.pop 0] rfl, rfl, rfl, rfl, rfl, rfl,
      rfl⟩
  | succ c ih =>
    obtain ⟨s, hr, hi, hw, occ, ho, he, hre⟩ := ih (Nat.le_of_succ_le low)
    refine ⟨_, reach_emplace_mpmc hr hi ?_ c, rfl, hw, ?_, ho, ?_, hre⟩
    · rw [ho, occ]
      simp only [slots, sizeCount] at low ⊢
      omega
    · simp only [occ, slots, sizeCount] at low ⊢
      omega
    · rw [he, range_succ]

/-- One item more than there are slots: the first item is overwritten while its pop, which has
reserved its index, waits, and the pop cannot go on. -/
theorem item_overwritten : ∃ state : AsyncQueueMpmc (Fin 1) Nat,
    (asyncQueueMpmc (Fin 1) 0).Reachable state ∧
    state.emplaced = List.range 8193 ∧ state.returned = [] ∧ state.poppers 0 = .testing 0 ∧
      state.first 0 = 8192 ∧
    state.pop 0 = none := by
  obtain ⟨state, hr, hi, hw, occ, ho, emplaced, returned⟩ := reach_round 8192 (by decide)
  refine ⟨_, reach_emplace_mpmc hr hi (by rw [ho, occ]; decide) 8192, ?_, returned, hw, ?_, ?_⟩
  · rw [emplaced]
    exact range_succ.symm
  · simp only [occ]
    exact update_self ..
  · simp [pop, hw, occ, slots]

end Proteus.Olap
