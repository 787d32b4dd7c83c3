/-
**The pool of free buffers** (`olap/lib/util/datastructures/threadsafe-set.hpp`,
`UnsafeRingBuffer`).

Both ends of the ring hand out tickets. The ticket names a slot; whoever fills the slot waits until
it is free, and whoever empties it waits until it is marked with its own ticket. Tickets are steps
of two in 32 bits, and a slot is marked with the ticket that emptied it or one more than the ticket
that filled it. One thread fills, any number of threads empty.

Counters are kept here as the number of tickets handed out, and their 32 bits are taken where the
code looks at them.

* `Tickets` — the invariant: tickets that are filled and not yet emptied lie within one round of the
  ring, and exactly their slots are marked as filled.
* `Tickets.span` — how far the tickets of waiting threads are apart, and `Tickets.mayTake_iff` that
  a thread then finds its own ticket only.
* `Tickets.fill`, `Tickets.takeTicket`, `Tickets.take` — the steps keep the invariant.
-/

import Proteus.Library.Gather
import Proteus.Library.Tally

namespace Proteus.Olap.Router

open Library Function

/-! ### The ring -/

/-- `N` -/
def ringSlots : Nat := 64 * 1024

/-- The values of `index_t`. -/
def indexCount : Nat := 2 ^ 32

structure Entry (α : Type) where
  marker : Nat
  data : α

/-- `head` and `tail` count tickets. -/
structure RingBuffer (α : Type) where
  head : Nat
  tail : Nat
  slots : Fin ringSlots → Entry α

/-- The slot of a ticket. -/
def slotOf (ticket : Nat) : Fin ringSlots :=
  ⟨2 * ticket % indexCount / 2 % ringSlots, Nat.mod_lt _ (by decide)⟩

def filledMarker (ticket : Nat) : Nat := (2 * ticket + 1) % indexCount

def freedMarker (ticket : Nat) : Nat := 2 * ticket % indexCount

namespace RingBuffer

variable {α : Type}

def initial (blank : α) : RingBuffer α := ⟨0, 0, fun _ => ⟨indexCount - 2, blank⟩⟩

/-- `empty_unsafe` -/
def isEmpty (ring : RingBuffer α) : Bool := 2 * ring.head % indexCount == 2 * ring.tail % indexCount

/-- What `emplace` waits for. -/
def mayFill (ring : RingBuffer α) (ticket : Nat) : Bool :=
    (ring.slots (slotOf ticket)).marker % 2 == 0

/-- The end of `emplace`. -/
def fill (ring : RingBuffer α) (ticket : Nat) (item : α) : RingBuffer α :=
  { ring with slots := Function.update ring.slots (slotOf ticket) ⟨filledMarker ticket, item⟩ }

/-- What `pop` waits for. -/
def mayTake (ring : RingBuffer α) (ticket : Nat) : Bool :=
  (ring.slots (slotOf ticket)).marker == filledMarker ticket

def itemAt (ring : RingBuffer α) (ticket : Nat) : α := (ring.slots (slotOf ticket)).data

/-- The end of `pop`. -/
def take (ring : RingBuffer α) (ticket : Nat) : RingBuffer α :=
  { ring with slots := Function.update ring.slots (slotOf ticket) ⟨freedMarker ticket,
    ring.itemAt ticket⟩ }

variable {r : RingBuffer α} {t : Nat} {x : α} {s : Fin ringSlots}

theorem fill_same : (r.fill t x).slots (slotOf t) = ⟨filledMarker t, x⟩ :=
  update_self ..

theorem fill_other (ho : s ≠ slotOf t) : (r.fill t x).slots s = r.slots s :=
  update_of_ne ho _ _

theorem take_same : (r.take t).slots (slotOf t) = ⟨freedMarker t, r.itemAt t⟩ :=
  update_self ..

theorem take_other (ho : s ≠ slotOf t) : (r.take t).slots s = r.slots s :=
  update_of_ne ho _ _

end RingBuffer

/-- What a slot has. -/
def Entry.content {α : Type} (entry : Entry α) : Multiset α :=
  if entry.marker % 2 = 1 then {entry.data} else 0

/-- What is in the pool. -/
def RingBuffer.free {α : Type} (ring : RingBuffer α) : Multiset α := gather Entry.content ring.slots

/-! ### Slots and markers -/

open RingBuffer

section

variable {f se t : Nat}

theorem slotOf_eq_iff : slotOf f = slotOf se ↔ f % ringSlots = se % ringSlots := by
  simp only [slotOf, Fin.mk.injEq, indexCount, ringSlots]
  omega

theorem slotOf_inj_of_near (hn : se < f + ringSlots) (le : f ≤ se)
    (hs : slotOf f = slotOf se) : f = se := by
  rw [slotOf_eq_iff] at hs
  simp only [ringSlots] at hn hs
  omega

theorem slotOf_ne (hl : f < se) (low : se < ringSlots) : slotOf f ≠ slotOf se := fun hs =>
  absurd (slotOf_inj_of_near (by omega) hl.le hs) hl.ne

theorem filledMarker_odd (t : Nat) : filledMarker t % 2 = 1 := by
  simp only [filledMarker, indexCount]
  omega

theorem freedMarker_even (t : Nat) : freedMarker t % 2 = 0 := by
  simp only [freedMarker, indexCount]
  omega

theorem mayFill_take {α : Type} {r : RingBuffer α} {h t : Nat} (he : r.mayFill h = true) :
    (r.take t).mayFill h = true := by
  rw [mayFill, beq_iff_eq] at he ⊢
  by_cases hs : slotOf h = slotOf t
  · rw [hs, take_same]
    exact freedMarker_even t
  · rw [take_other hs]
    exact he

theorem filledMarker_inj_of_near (hn : se < f + 2 ^ 31) (le : f ≤ se)
    (hs : filledMarker f = filledMarker se) : f = se := by
  simp only [filledMarker, indexCount] at hs
  omega

end

/-! ### Tickets -/

section

variable {α ι : Type} {ring ri : RingBuffer α} {filled fi : Nat} {pending pe : ι → Option Nat}
    {ticket ti : Nat}

/-- A ticket that is filled and was not emptied: nobody has it yet, or somebody who waits. -/
def Unread (ring : RingBuffer α) (filled : Nat) (pending : ι → Option Nat) (ticket : Nat) : Prop :=
  ticket < filled ∧ (ring.tail ≤ ticket ∨ ∃ popper, pending popper = some ticket)

structure Tickets (ring : RingBuffer α) (filled : Nat) (pending : ι → Option Nat) : Prop where
  below : ∀ popper ticket, pending popper = some ticket → ticket < ring.tail
  apart : ∀ popper other ticket, pending popper = some ticket → pending other = some ticket →
    popper = other
  done : ∀ ticket < ring.tail, (∀ popper, pending popper ≠ some ticket) → ticket < filled
  window : ∀ ticket, Unread ring filled pending ticket → filled ≤ ticket + ringSlots
  marked : ∀ ticket, Unread ring filled pending ticket →
    (ring.slots (slotOf ticket)).marker = filledMarker ticket
  odd : ∀ slot, (ring.slots slot).marker % 2 = 1 → ∃ ticket, Unread ring filled pending ticket ∧
    slotOf ticket = slot

namespace Tickets

theorem initial (b : α) : Tickets (.initial b) 0 (fun _ : ι => none) where
  below := by nofun
  apart := by nofun
  done := fun _ low => absurd low (Nat.not_lt_zero _)
  window := fun _ hu => absurd hu.1 (Nat.not_lt_zero _)
  marked := fun _ hu => absurd hu.1 (Nat.not_lt_zero _)
  odd := fun s odd => by
    simp only [RingBuffer.initial, indexCount] at odd
    omega

theorem withHead (ht : Tickets ri fi pe) (head : Nat) : Tickets { ri with head } fi pe :=
  ⟨ht.below, ht.apart, ht.done, ht.window, ht.marked, ht.odd⟩

theorem slotOf_inj (ht : Tickets ri fi pe) {f s : Nat}
    (hu : Unread ri fi pe f) (ho : Unread ri fi pe s)
    (hs : slotOf f = slotOf s) : f = s := by
  have hw := ht.window f hu
  have hwo := ht.window s ho
  have low := hu.1
  have hlo := ho.1
  rcases Nat.le_total f s with le | le
  · exact slotOf_inj_of_near (by omega) le hs
  · exact (slotOf_inj_of_near (by omega) le hs.symm).symm

/-! #### Waiting threads find their own ticket -/

variable [Fintype ι]

/-- **The span.** Behind the ticket of a waiting thread there are those of the others, and tickets
of one round. -/
theorem span [DecidableEq ι] (ht : Tickets ri fi pe) {p : ι} (hw : pe p = some ti) :
    ri.tail < ti + ringSlots + tally (fun w : Option Nat => w.isSome) pe := by
  have hco : Finset.Ico ti ri.tail ⊆ ((Finset.univ.filter fun p => (pe p).isSome).image fun p =>
        (pe p).getD 0) ∪ Finset.Ioo ti fi := by
    intro b hm
    rw [Finset.mem_Ico] at hm
    rw [Finset.mem_union, Finset.mem_image, Finset.mem_Ioo]
    by_cases w : ∃ o, pe o = some b
    · obtain ⟨o, hh⟩ := w
      exact .inl ⟨o, by simp [hh], by simp [hh]⟩
    · have hb := ht.done b hm.2 fun o hh => w ⟨o, hh⟩
      refine .inr ⟨lt_of_le_of_ne hm.1 ?_, hb⟩
      rintro rfl
      exact w ⟨p, hw⟩
  have hc := (Finset.card_le_card hco).trans (Finset.card_union_le _ _)
  have hi := Finset.card_image_le (s := Finset.univ.filter fun p => (pe p).isSome)
    (f := fun p => (pe p).getD 0)
  rw [Nat.card_Ico, Nat.card_Ioo] at hc
  have hs : (Finset.univ.filter fun p => (pe p).isSome).card =
      tally (fun w : Option Nat => w.isSome) pe := rfl
  have hr : fi - ti - 1 ≤ ringSlots - 1 := by
    by_cases low : ti < fi
    · have := ht.window ti ⟨low, .inr ⟨p, hw⟩⟩
      omega
    · omega
  have : 0 < ringSlots := by decide
  omega

/-- **A waiting thread is served by its own ticket**, if not too many wait. -/
theorem mayTake_iff [DecidableEq ι] (ht : Tickets ri fi pe) {p : ι} (hw : pe p = some ti)
    (few : ringSlots + tally (fun w : Option Nat => w.isSome) pe ≤ 2 ^ 31 + 1) :
    ri.mayTake ti = true ↔ ti < fi := by
  rw [mayTake, beq_iff_eq]
  refine ⟨fun hs => ?_, fun low => ht.marked ti ⟨low, .inr ⟨p, hw⟩⟩⟩
  obtain ⟨f, hu, hsl⟩ := ht.odd (slotOf ti) (hs ▸ filledMarker_odd ti)
  have hm : filledMarker f = filledMarker ti := by
    rw [← ht.marked f hu, hsl, hs]
  have hb := ht.below p ti hw
  have hsh := ht.span hw
  suffices f = ti from this ▸ hu.1
  rcases hu.2 with hl | ⟨o, hh⟩
  · -- nobody has the ticket that was found, so the own one is unread as well
    have low : ti < fi := hb.trans_le (hl.trans hu.1.le)
    have hwi := ht.window ti ⟨low, .inr ⟨p, hw⟩⟩
    have := hu.1
    simp only [ringSlots] at hwi
    exact (filledMarker_inj_of_near (by omega) (by omega) hm.symm).symm
  · have hbo := ht.below o f hh
    have hso := ht.span hh
    rcases Nat.le_total f ti with le | le
    · exact filledMarker_inj_of_near (by omega) le hm
    · exact (filledMarker_inj_of_near (by omega) le hm.symm).symm

omit [Fintype ι]

/-! #### Steps -/

theorem not_unread_of_even (ht : Tickets ri fi pe) {s : Fin ringSlots}
    (he : (ri.slots s).marker % 2 = 0) (hu : Unread ri fi pe ti) :
    slotOf ti ≠ s := by
  rintro rfl
  have odd := filledMarker_odd ti
  rw [← ht.marked ti hu] at odd
  omega

/-- **Filling the slot of the next ticket.** -/
theorem fill (ht : Tickets ri fi pe) (he : ri.mayFill fi = true) (x : α) :
    Tickets (ri.fill fi x) (fi + 1) pe := by
  rw [mayFill, beq_iff_eq] at he
  have hc : ∀ ticket, Unread (ri.fill fi x) (fi + 1) pe ticket →
      ticket = fi ∨ Unread ri fi pe ticket := by
    rintro ticket ⟨low, hw⟩
    rcases Nat.lt_succ_iff_lt_or_eq.mp low with hl | hs
    · exact .inr ⟨hl, hw⟩
    · exact .inl hs
  refine ⟨ht.below, ht.apart, fun ticket low hf => ?_, fun ticket hu => ?_,
    fun ticket hu => ?_, fun s odd => ?_⟩
  · exact (ht.done ticket low hf).trans (Nat.lt_succ_self _)
  · rcases hc ticket hu with rfl | hb
    · have : 0 < ringSlots := by decide
      omega
    · have hwi := ht.window ticket hb
      have ho := ht.not_unread_of_even he hb
      rw [Ne, slotOf_eq_iff] at ho
      simp only [ringSlots] at hwi ho ⊢
      omega
  · rcases hc ticket hu with rfl | hb
    · rw [fill_same]
    · rw [fill_other (ht.not_unread_of_even he hb)]
      exact ht.marked ticket hb
  · by_cases hs : s = slotOf fi
    · refine ⟨fi, ⟨Nat.lt_succ_self _, ?_⟩, hs.symm⟩
      by_contra hn
      rw [not_or, not_le, not_exists] at hn
      exact absurd (ht.done fi hn.1 hn.2) (Nat.lt_irrefl _)
    · rw [fill_other hs] at odd
      obtain ⟨ticket, hu, hp⟩ := ht.odd s odd
      exact ⟨ticket, ⟨hu.1.trans (Nat.lt_succ_self _), hu.2⟩, hp⟩

variable [DecidableEq ι]

/-- **Taking a ticket** at the end where slots are emptied. -/
theorem takeTicket (ht : Tickets ri fi pe) {p : ι} (hi : pe p = none) :
    Tickets { ri with tail := ri.tail + 1 } fi (update pe p (some ri.tail)) := by
  have hh : ∀ o ticket, update pe p (some ri.tail) o = some ticket →
      o = p ∧ ticket = ri.tail ∨ o ≠ p ∧ pe o = some ticket := by
    intro o ticket hw
    by_cases hs : o = p
    · subst hs
      rw [update_self] at hw
      exact .inl ⟨rfl, (Option.some.inj hw).symm⟩
    · rw [update_of_ne hs] at hw
      exact .inr ⟨hs, hw⟩
  have hs : ∀ ticket, Unread { ri with tail := ri.tail + 1 } fi
      (update pe p (some ri.tail)) ticket ↔ Unread ri fi pe ticket := by
    intro ticket
    refine and_congr_right fun _ => ⟨?_, ?_⟩
    · rintro (hl | ⟨o, hw⟩)
      · exact .inl ((Nat.le_succ _).trans hl)
      · rcases hh o ticket hw with ⟨_, rfl⟩ | ⟨_, hb⟩
        · exact .inl le_rfl
        · exact .inr ⟨o, hb⟩
    · rintro (hl | ⟨o, hw⟩)
      · rcases hl.eq_or_lt with rfl | hle
        · exact .inr ⟨p, update_self ..⟩
        · exact .inl hle
      · refine .inr ⟨o, ?_⟩
        rw [update_of_ne, hw]
        rintro rfl
        rw [hi] at hw
        cases hw
  refine ⟨fun o ticket hw => ?_, fun f s ticket hw o => ?_,
    fun ticket low hf => ?_, fun ticket hu => ht.window ticket ((hs ticket).mp hu),
    fun ticket hu => ht.marked ticket ((hs ticket).mp hu), fun sl odd => ?_⟩
  · rcases hh o ticket hw with ⟨_, rfl⟩ | ⟨_, hb⟩
    · exact Nat.lt_succ_self _
    · exact (ht.below o ticket hb).trans (Nat.lt_succ_self _)
  · rcases hh f ticket hw with ⟨rfl, rfl⟩ | ⟨_, hb⟩
    · rcases hh s _ o with ⟨rfl, _⟩ | ⟨_, hb⟩
      · rfl
      · exact absurd (ht.below _ _ hb) (Nat.lt_irrefl _)
    · rcases hh s _ o with ⟨_, rfl⟩ | ⟨_, hbo⟩
      · exact absurd (ht.below _ _ hb) (Nat.lt_irrefl _)
      · exact ht.apart f s ticket hb hbo
  · have hle : ticket ≠ ri.tail := by
      rintro rfl
      exact hf p (update_self ..)
    refine ht.done ticket (lt_of_le_of_ne (Nat.lt_succ_iff.mp low) hle) fun o hw => ?_
    refine hf o ?_
    rw [update_of_ne, hw]
    rintro rfl
    rw [hi] at hw
    cases hw
  · obtain ⟨ticket, hu, hp⟩ := ht.odd sl odd
    exact ⟨ticket, (hs ticket).mpr hu, hp⟩

/-- **Emptying the slot of one's ticket.** -/
theorem take (ht : Tickets ri fi pe) {p : ι} (hw : pe p = some ti) (low : ti < fi) :
    Tickets (ri.take ti) fi (update pe p none) := by
  have hh : Unread ri fi pe ti := ⟨low, .inr ⟨p, hw⟩⟩
  have hhe : ∀ o n, update pe p none o = some n → o ≠ p ∧ pe o = some n := by
    intro o n hw
    have hd : o ≠ p := by
      rintro rfl
      rw [update_self] at hw
      cases hw
    rw [update_of_ne hd] at hw
    exact ⟨hd, hw⟩
  have hs : ∀ n, Unread (ri.take ti) fi (update pe p none) n ↔ Unread ri fi pe n ∧ n ≠ ti := by
    intro n
    refine ⟨?_, ?_⟩
    · rintro ⟨hle, hl | ⟨o, hho⟩⟩
      · refine ⟨⟨hle, .inl hl⟩, ?_⟩
        rintro rfl
        exact absurd (ht.below p n hw) (not_lt.mpr hl)
      · obtain ⟨hd, hb⟩ := hhe o n hho
        refine ⟨⟨hle, .inr ⟨o, hb⟩⟩, ?_⟩
        rintro rfl
        exact hd (ht.apart o p n hb hw)
    · rintro ⟨⟨hle, hl | ⟨o, hho⟩⟩, hd⟩
      · exact ⟨hle, .inl hl⟩
      · refine ⟨hle, .inr ⟨o, ?_⟩⟩
        rw [update_of_ne, hho]
        rintro rfl
        rw [hw] at hho
        exact hd (Option.some.inj hho).symm
  refine ⟨fun o n hho => ht.below o n (hhe o n hho).2,
    fun f s n hho o => ht.apart f s n (hhe _ _ hho).2 (hhe _ _ o).2, fun n hle hf => ?_,
    fun n hu => ht.window n ((hs n).mp hu).1, fun n hu => ?_,
    fun sl odd => ?_⟩
  · by_cases hh : n = ti
    · exact hh ▸ low
    · refine ht.done n hle fun o hho => hf o ?_
      rw [update_of_ne, hho]
      rintro rfl
      rw [hw] at hho
      exact hh (Option.some.inj hho).symm
  · obtain ⟨hb, hd⟩ := (hs n).mp hu
    rw [take_other fun hp => hd (ht.slotOf_inj hb hh hp)]
    exact ht.marked n hb
  · have hd : sl ≠ slotOf ti := by
      rintro rfl
      rw [take_same, freedMarker_even] at odd
      cases odd
    rw [take_other hd] at odd
    obtain ⟨n, hu, hp⟩ := ht.odd sl odd
    refine ⟨n, (hs n).mpr ⟨hu, ?_⟩, hp⟩
    rintro rfl
    exact hd hp.symm

end Tickets

end

/-! ### What is in the pool -/

section

variable {α : Type} {r : RingBuffer α} {t : Nat}

theorem free_initial (b : α) : (initial b).free = 0 := by
  refine gather_eq_zero fun s => if_neg ?_
  simp only [initial, indexCount]
  omega

theorem free_fill (he : r.mayFill t = true) (x : α) : (r.fill t x).free = r.free + {x} := by
  rw [mayFill, beq_iff_eq] at he
  refine gather_update_add ?_
  rw [Entry.content, if_pos (filledMarker_odd t), Entry.content, if_neg (by omega), zero_add]

theorem free_take (hm : r.mayTake t = true) : (r.take t).free + {r.itemAt t} = r.free := by
  rw [mayTake, beq_iff_eq] at hm
  refine gather_update_sub ?_
  have odd := filledMarker_odd t
  have he := freedMarker_even t
  rw [Entry.content, hm, if_pos odd, Entry.content, if_neg (by simp only; omega), zero_add]
  rfl

theorem Tickets.exists_unread {ι : Type} {f : Nat} {p : ι → Option Nat}
    (ht : Tickets r f p) (hs : r.free ≠ 0) :
    ∃ t, Unread r f p t := by
  by_contra hn
  refine hs (gather_eq_zero fun s => if_neg fun odd => ?_)
  obtain ⟨t, hu, _⟩ := ht.odd s odd
  exact hn ⟨t, hu⟩

end

end Proteus.Olap.Router
