/-
**A map kept in the order of a comparison function.**

The entries of a map such as `std::map` stand in the order that a user's comparison gives their
keys, and two keys are the same key if neither is less than the other. The comparison is a program:
it may fail, and nothing makes it an order. `StrictTotal` is what it has to be on the keys in use.

* `find_spec`, `insert_spec`, `erase_spec` — with such a comparison, the map is a map of its keys.
-/

import Mathlib.Data.Set.Basic
import Mathlib.Tactic.Cases

namespace Proteus.Library

open List

variable {K V E : Type}

/-- A comparison that never fails on `keys` and orders any two of them. -/
structure StrictTotal (less : K → K → Except E Bool) (keys : Set K) : Prop where
  returns : ∀ x ∈ keys, ∀ y ∈ keys, ∃ result, less x y = .ok result
  irreflexive : ∀ x ∈ keys, less x x = .ok false
  transitive : ∀ x ∈ keys, ∀ y ∈ keys, ∀ z ∈ keys,
    less x y = .ok true → less y z = .ok true → less x z = .ok true
  total : ∀ x ∈ keys, ∀ y ∈ keys, less x y = .ok false → less y x = .ok false → x = y

namespace ComparatorMap

/-- The value of the first entry that is not less than `key`, if `key` is not less than it
either. -/
def find (less : K → K → Except E Bool) : List (K × V) → K → Except E (Option V)
  | [], _ => .ok none
  | (stored, value) :: rest, key => do
    if ← less stored key then find less rest key
    else if ← less key stored then .ok none
    else .ok (some value)

/-- `map[key] = value` -/
def insert (less : K → K → Except E Bool) (key : K) (value : V) : List (K × V) →
    Except E (List (K × V))
  | [] => .ok [(key, value)]
  | (stored, old) :: rest => do
    if ← less stored key then do
      let inserted ← insert less key value rest
      .ok ((stored, old) :: inserted)
    else if ← less key stored then .ok ((key, value) :: (stored, old) :: rest)
    else .ok ((stored, value) :: rest)

def erase (less : K → K → Except E Bool) (key : K) : List (K × V) → Except E (List (K × V))
  | [] => .ok []
  | (stored, old) :: rest => do
    if ← less stored key then do
      let erased ← erase less key rest
      .ok ((stored, old) :: erased)
    else if ← less key stored then .ok ((stored, old) :: rest)
    else .ok rest

/-- Keys in use, each less than all behind it. -/
structure Sorted (less : K → K → Except E Bool) (keys : Set K) (entries : List (K × V)) : Prop where
  known : ∀ entry ∈ entries, entry.1 ∈ keys
  increasing : entries.Pairwise fun first second => less first.1 second.1 = .ok true

section

variable {l : K → K → Except E Bool} {ke : Set K} {es tl : List (K × V)} {key s : K}
  {v ol : V}

theorem sorted_nil : Sorted l ke ([] : List (K × V)) :=
  ⟨fun _ hn => (by cases hn), .nil⟩

variable (sorted : Sorted l ke ((s, ol) :: tl))

include sorted

theorem Sorted.tail : Sorted l ke tl :=
  ⟨fun e hm => sorted.known e (mem_cons_of_mem _ hm), (pairwise_cons.mp sorted.increasing).2⟩

theorem Sorted.head : s ∈ ke :=
  sorted.known (s, ol) mem_cons_self

theorem Sorted.less_tail {e : K × V} (hm : e ∈ tl) : l s e.1 = .ok true :=
  (pairwise_cons.mp sorted.increasing).1 e hm

omit sorted

theorem Sorted.cons (sorted : Sorted l ke tl) (hk : s ∈ ke)
    (hb : ∀ e ∈ tl, l s e.1 = .ok true) : Sorted l ke ((s, ol) :: tl) := by
  refine ⟨?_, pairwise_cons.mpr ⟨hb, sorted.increasing⟩⟩
  rintro e (_ | ⟨_, hm⟩)
  · exact hk
  · exact sorted.known e hm

section

variable (order : StrictTotal l ke)

include order

theorem compared (hk : s ∈ ke) (hu : key ∈ ke) : (l s key = .ok true ∧ s ≠ key) ∨
      (l s key = .ok false ∧ l key s = .ok true ∧ s ≠ key) ∨
      (l s key = .ok false ∧ l key s = .ok false ∧ s = key) := by
  have ha : ∀ x ∈ ke, ∀ y, l x y = .ok true → x ≠ y := by
    rintro x hm _ l rfl
    rw [order.irreflexive x hm] at l
    cases l
  obtain ⟨f, ht⟩ := order.returns s hk key hu
  obtain ⟨b, hb⟩ := order.returns key hu s hk
  cases f with
  | true => exact Or.inl ⟨ht, ha s hk key ht⟩
  | false =>
    cases b with
    | true => exact Or.inr (Or.inl ⟨ht, hb, (ha key hu s hb).symm⟩)
    | false => exact Or.inr (Or.inr ⟨ht, hb, order.total s hk key hu ht hb⟩)

theorem Sorted.absent (hu : key ∈ ke) (sorted : Sorted l ke ((s, ol) :: tl))
    (hg : l key s = .ok true) : (key, v) ∉ tl := by
  intro hm
  have hl := order.transitive key hu s sorted.head key hu hg (sorted.less_tail hm)
  rw [order.irreflexive key hu] at hl
  cases hl

theorem Sorted.once (sorted : Sorted l ke ((key, ol) :: tl)) : (key, v) ∉ tl := by
  intro hm
  have hl := sorted.less_tail hm
  rw [order.irreflexive key sorted.head] at hl
  cases hl

theorem find_spec (sorted : Sorted l ke es) (hu : key ∈ ke) :
    ∃ f, find l es key = .ok f ∧ ∀ v, f = some v ↔ (key, v) ∈ es := by
  induction es with
  | nil => exact ⟨none, rfl, fun v => by simp⟩
  | cons e tl ih =>
    obtain ⟨s, ol⟩ := e
    rcases compared order sorted.head hu with
      ⟨ht, ha⟩ | ⟨ht, hb, ha⟩ | ⟨ht, hb, rfl⟩
    · obtain ⟨f, hd, hs⟩ := ih sorted.tail
      refine ⟨f, by simp only [find, ht, bind, Except.bind, if_true, hd], fun v => ?_⟩
      simp [hs, ha.symm]
    · refine ⟨none, by simp [find, ht, hb, bind, Except.bind], fun v => ?_⟩
      simp [ha.symm, sorted.absent order hu hb]
    · refine ⟨some ol, by simp [find, ht, bind, Except.bind], fun v => ?_⟩
      simp [sorted.once order, eq_comm]

theorem insert_spec (sorted : Sorted l ke es) (hu : key ∈ ke) (v : V) :
    ∃ a, insert l key v es = .ok a ∧ Sorted l ke a ∧ ∀ o s, (o, s) ∈ a ↔
        (o = key ∧ s = v) ∨ (o ≠ key ∧ (o, s) ∈ es) := by
  induction es with
  | nil =>
    refine ⟨[(key, v)], rfl, ⟨fun e hm => ?_, pairwise_singleton _ _⟩, fun o s => ?_⟩
    · rw [mem_singleton.mp hm]
      exact hu
    · simp
  | cons e tl ih =>
    obtain ⟨s, ol⟩ := e
    rcases compared order sorted.head hu with
      ⟨ht, ha⟩ | ⟨ht, hba, ha⟩ | ⟨ht, hba, rfl⟩
    · obtain ⟨a, hd, haf, hsp⟩ := ih sorted.tail
      refine ⟨(s, ol) :: a, by simp only [insert, ht, bind, Except.bind, if_true, hd],
        haf.cons sorted.head fun e hm => ?_, fun o k => ?_⟩
      · obtain ⟨o, k⟩ := e
        rcases (hsp o k).mp hm with ⟨rfl, _⟩ | ⟨_, hm⟩
        · exact ht
        · exact sorted.less_tail hm
      · rw [mem_cons, mem_cons, hsp]
        by_cases hs : o = key
        · simp [hs, ha.symm]
        · simp [hs]
    · refine ⟨(key, v) :: (s, ol) :: tl, by simp [insert, ht, hba, bind, Except.bind],
        sorted.cons hu ?_, fun o k => ?_⟩
      · rintro e (_ | ⟨_, hm⟩)
        · exact hba
        · exact order.transitive key hu s sorted.head e.1
            (sorted.known e (mem_cons_of_mem _ hm)) hba (sorted.less_tail hm)
      · rw [mem_cons, Prod.mk.injEq]
        refine or_congr_right ⟨fun hm => ⟨?_, hm⟩, fun hb => hb.2⟩
        rintro rfl
        rcases mem_cons.mp hm with hs | hm
        · exact ha (Prod.mk.inj hs).1.symm
        · exact sorted.absent order hu hba hm
    · refine ⟨(s, v) :: tl, by simp [insert, ht, bind, Except.bind],
        sorted.tail.cons hu fun e hm => sorted.less_tail hm, fun o k => ?_⟩
      rw [mem_cons, mem_cons, Prod.mk.injEq, Prod.mk.injEq]
      by_cases hs : o = s
      · subst hs
        simp [sorted.once order]
      · simp [hs]

theorem erase_spec (sorted : Sorted l ke es) (hu : key ∈ ke) :
    ∃ a, erase l key es = .ok a ∧ Sorted l ke a ∧ ∀ o s, (o, s) ∈ a ↔ o ≠ key ∧ (o, s) ∈ es := by
  induction es with
  | nil => exact ⟨[], rfl, sorted, fun o s => by simp⟩
  | cons e tl ih =>
    obtain ⟨s, ol⟩ := e
    rcases compared order sorted.head hu with
      ⟨ht, ha⟩ | ⟨ht, hba, ha⟩ | ⟨ht, hba, rfl⟩
    · obtain ⟨a, hd, haf, hsp⟩ := ih sorted.tail
      refine ⟨(s, ol) :: a, by simp only [erase, ht, bind, Except.bind, if_true, hd],
        haf.cons sorted.head fun e hm =>
          sorted.less_tail ((hsp e.1 e.2).mp hm).2, fun o k => ?_⟩
      rw [mem_cons, mem_cons, hsp]
      by_cases hs : o = key
      · simp [hs, ha.symm]
      · simp [hs]
    · refine ⟨(s, ol) :: tl, by simp [erase, ht, hba, bind, Except.bind], sorted,
        fun o k => ⟨fun hm => ⟨?_, hm⟩, fun hb => hb.2⟩⟩
      rintro rfl
      rcases mem_cons.mp hm with hs | hm
      · exact ha (Prod.mk.inj hs).1.symm
      · exact sorted.absent order hu hba hm
    · refine ⟨tl, by simp [erase, ht, bind, Except.bind], sorted.tail, fun o k => ?_⟩
      rw [mem_cons, Prod.mk.injEq]
      by_cases hs : o = s
      · subst hs
        simp [sorted.once order]
      · simp [hs]

end

end

end ComparatorMap

end Proteus.Library
