/-
**A fixed array of sorted slots.**

An array of `capacity` keys and one of as many optional values, of which the first `count` slots are
in use. `insert` looks for the position of the key, replaces the value there if the key is in use,
and otherwise moves the later slots up by one. It fails where the array would overflow.

* `Sorted` — the invariant: the used keys increase strictly, and exactly the used slots have values.
* `Holds` — the partial map the slots stand for. `insert_present` and `insert_absent` say that
  `insert` is an update of it and keeps the invariant; `find_iff` and `scan_iff` say that a search
  of the used slots, and a search of all slots, read it.
* `entries` — the used slots from the first to the last, which are the map in increasing order.
-/

import Mathlib

namespace Proteus.Library

open List Option Function

structure Slots (capacity : Nat) (K C : Type) where
  keys : Nat → K
  values : Nat → Option C
  count : Nat

namespace Slots

variable {capacity : Nat} {K C : Type} [LinearOrder K]

def positionFrom (keys : Nat → K) (key : K) : Nat → Nat → Nat
  | 0, pos => pos
  | left + 1, pos => if keys pos < key then positionFrom keys key left (pos + 1) else pos

def position (slots : Slots capacity K C) (key : K) : Nat :=
  positionFrom slots.keys key slots.count 0

/-- Make room at `pos` and fill it. -/
def shiftIn (slots : Slots capacity K C) (pos : Nat) (key : K) (value : C) :
    Slots capacity K C where
  keys slot :=
    if slot < pos then slots.keys slot
    else if slot = pos then key
    else if slot ≤ slots.count then slots.keys (slot - 1)
    else slots.keys slot
  values slot :=
    if slot < pos then slots.values slot
    else if slot = pos then some value
    else if slot ≤ slots.count then slots.values (slot - 1)
    else slots.values slot
  count := slots.count + 1

/-- `none` is an access behind the array. -/
def insert (slots : Slots capacity K C) (key : K) (value : C) : Option (Slots capacity K C) :=
  let pos := slots.position key
  if capacity ≤ pos then none
  else if slots.keys pos = key ∧ (slots.values pos).isSome then
    some { slots with values := Function.update slots.values pos (some value) }
  else if pos ≠ slots.count ∧ slots.count = capacity then none
  else some (slots.shiftIn pos key value)

/-- The first used slot with the key. -/
def find (slots : Slots capacity K C) (key : K) : Option C :=
  ((List.range capacity).find? fun slot => slot < slots.count ∧ slots.keys slot = key).bind
    slots.values

/-- The first slot with the key, used or not. -/
def scan (slots : Slots capacity K C) (key : K) : Option C :=
  ((List.range capacity).find? fun slot => slots.keys slot = key).bind slots.values

/-- The used slots are in order, and they are the ones with values. -/
structure Sorted (slots : Slots capacity K C) : Prop where
  bound : slots.count ≤ capacity
  increasing : ∀ first second, first < second → second < slots.count →
    slots.keys first < slots.keys second
  filled : ∀ slot, (slots.values slot).isSome ↔ slot < slots.count

/-- The map the used slots stand for. -/
def Holds (slots : Slots capacity K C) (key : K) (value : C) : Prop :=
  ∃ slot, slot < slots.count ∧ slots.keys slot = key ∧ slots.values slot = some value

/-! ### The position of a key -/

theorem positionFrom_spec (ke : Nat → K) (k : K) (l pos : Nat) :
    pos ≤ positionFrom ke k l pos ∧ positionFrom ke k l pos ≤ pos + l ∧
      (∀ s, pos ≤ s → s < positionFrom ke k l pos → ke s < k) ∧
      (positionFrom ke k l pos < pos + l → k ≤ ke (positionFrom ke k l pos)) := by
  induction l generalizing pos with
  | zero => exact ⟨le_rfl, le_rfl, fun s low hh => absurd hh (not_lt.mpr low), fun hle => by
      exact absurd hle (lt_irrefl _)⟩
  | succ l ih =>
    unfold positionFrom
    split_ifs with hsm
    · obtain ⟨hs, hst, hb, ha⟩ := ih (pos + 1)
      refine ⟨by omega, by omega, fun s low hh => ?_, fun hle => ha (by omega)⟩
      rcases low.eq_or_lt with rfl | hl
      · exact hsm
      · exact hb s hl hh
    · exact ⟨le_rfl, by omega, fun s low hh => absurd hh (not_lt.mpr low), fun _ => not_lt.mp hsm⟩

variable {slot s : Nat}

section

variable {ss : Slots capacity K C} {k : K}

theorem position_le : ss.position k ≤ ss.count := by
  have := (positionFrom_spec ss.keys k ss.count 0).2.1
  simpa [position] using this

theorem keys_lt_of_lt_position (hb : s < ss.position k) : ss.keys s < k :=
  (positionFrom_spec ss.keys k ss.count 0).2.2.1 s (Nat.zero_le _) hb

theorem le_keys_position (hu : ss.position k < ss.count) : k ≤ ss.keys (ss.position k) :=
  (positionFrom_spec ss.keys k ss.count 0).2.2.2 (by simpa [position] using hu)

theorem lt_keys_of_position_le (hso : ss.Sorted) (hu : s < ss.count)
    (ha : ss.position k ≤ s) (ho : ss.keys (ss.position k) ≠ k) :
    k < ss.keys s := by
  have hh : k < ss.keys (ss.position k) := lt_of_le_of_ne (le_keys_position (by omega)) (Ne.symm ho)
  rcases ha.eq_or_lt with hs | hl
  · rwa [← hs]
  · exact hh.trans (hso.increasing _ _ hl hu)

end

/-! ### Searching -/

section

variable {ss : Slots capacity K C} {k : K} {v : C}

theorem Sorted.injective (hso : ss.Sorted) {f s : Nat} (hle : f < ss.count)
    (hr : s < ss.count) (hs : ss.keys f = ss.keys s) : f = s := by
  rcases lt_trichotomy f s with hl | he | hg
  · exact absurd hs (hso.increasing _ _ hl hr).ne
  · exact he
  · exact absurd hs (hso.increasing _ _ hg hle).ne'

theorem bind_find_iff (hso : ss.Sorted) {t : Nat → Bool}
    (hk : ∀ slot, t slot = true → ss.keys slot = k)
    (hu : ∀ slot, slot < ss.count → ss.keys slot = k → t slot = true) :
    ((List.range capacity).find? t).bind ss.values = some v ↔ ss.Holds k v := by
  constructor
  · intro hf
    obtain ⟨slot, hlo, hst⟩ := bind_eq_some_iff.mp hf
    have hiu : slot < ss.count := (hso.filled slot).mp (by rw [hst]; rfl)
    exact ⟨slot, hiu, hk slot (List.find?_some hlo), hst⟩
  · rintro ⟨slot, hiu, hh, hst⟩
    have hr : slot < capacity := hiu.trans_le hso.bound
    have hm : t slot = true := hu slot hiu hh
    cases hlo : (List.range capacity).find? t with
    | none =>
      have hmi := List.find?_eq_none.mp hlo slot (mem_range.mpr hr)
      exact absurd hm hmi
    | some o =>
      have hom : t o = true := List.find?_some hlo
      have hnl : o ≤ slot := by
        by_contra hl
        obtain ⟨_, p, low, hs, hb⟩ := List.find?_eq_some_iff_getElem.mp hlo
        rw [getElem_range] at hs
        have := hb slot (by omega)
        rw [getElem_range, hm] at this
        cases this
      obtain rfl := hso.injective hiu (hnl.trans_lt hiu) (hh.trans (hk o hom).symm)
      rw [bind_some, hst]

/-- **The search of the used slots reads the map.** -/
theorem find_iff (hs : ss.Sorted) : ss.find k = some v ↔ ss.Holds k v := by
  refine bind_find_iff hs (fun slot hm => ?_) fun slot hu hh => ?_
  · exact (by simpa using hm : slot < ss.count ∧ ss.keys slot = k).2
  · simpa using And.intro hu hh

/-- **The search of all slots reads the map**: an unused slot has no value, and a used slot with the
key stands in front of it. -/
theorem scan_iff (hs : ss.Sorted) : ss.scan k = some v ↔ ss.Holds k v :=
  bind_find_iff hs (fun slot hm => by simpa using hm) fun slot _ hh => by simpa using hh

end

/-! ### Insertion -/

section

variable {ss : Slots capacity K C} {key : K} {v : C}

theorem position_eq (hso : ss.Sorted) (hu : s < ss.count)
    (hh : ss.keys s = key) : ss.position key = s := by
  rcases lt_trichotomy (ss.position key) s with hb | hs | ha
  · have hl := hso.increasing _ _ hb hu
    rw [hh] at hl
    exact absurd hl (not_lt.mpr (le_keys_position (by omega)))
  · exact hs
  · exact absurd hh (keys_lt_of_lt_position ha).ne

/-- **A key in use gets the new value.** -/
theorem insert_present (hso : ss.Sorted) {ol : C} (hp : ss.Holds key ol) (v : C) :
    ∃ u, ss.insert key v = some u ∧ u.Sorted ∧ u.keys = ss.keys ∧ u.count = ss.count ∧
      ∀ o s, u.Holds o s ↔ if o = key then s = v else ss.Holds o s := by
  obtain ⟨slot, hu, hh, s⟩ := hp
  have at_slot := position_eq hso hu hh
  have hb := hso.bound
  refine ⟨{ ss with values := update ss.values slot (some v) }, ?_, ?_, rfl, rfl, ?_⟩
  · unfold insert
    simp only [at_slot, hh, s, isSome_some, and_self, if_true]
    rw [if_neg (by omega)]
  · refine ⟨hso.bound, hso.increasing, fun i => ?_⟩
    by_cases hs : i = slot
    · subst hs
      simp [hu]
    · simp [update_of_ne hs, hso.filled]
  · intro o k
    split_ifs with hs
    · subst hs
      constructor
      · rintro ⟨i, hiu, hm, hho⟩
        obtain rfl := hso.injective hiu hu (hm.trans hh.symm)
        simpa using hho.symm
      · rintro rfl
        exact ⟨slot, hu, hh, update_self _ _ _⟩
    · refine exists_congr fun i => and_congr_right fun hiu => and_congr_right fun hm => ?_
      have ha : i ≠ slot := fun he => hs (by rw [← hm, he, hh])
      show update _ slot _ i = _ ↔ _
      rw [update_of_ne ha]

section

variable (sorted : ss.Sorted)
  (absent : ss.position key < ss.count → ss.keys (ss.position key) ≠ key)

include sorted absent

theorem shiftIn_sorted (hr : ss.count < capacity) :
    (ss.shiftIn (ss.position key) key v).Sorted := by
  have hi : ss.position key ≤ ss.count := position_le
  refine ⟨hr, fun f s hl hu => ?_, fun slot => ?_⟩
  · simp only [shiftIn] at hu ⊢
    split_ifs <;> first
      | omega
      | exact sorted.increasing _ _ (by omega) (by omega)
      | exact keys_lt_of_lt_position (by omega)
      | exact lt_keys_of_position_le sorted (by omega) (by omega) (absent (by omega))
  · simp only [shiftIn]
    split_ifs <;> simp only [sorted.filled, isSome_some, true_iff] <;> omega

theorem shiftIn_holds (o : K) (s : C) : (ss.shiftIn (ss.position key) key v).Holds o s ↔
      if o = key then s = v else ss.Holds o s := by
  have hi : ss.position key ≤ ss.count := position_le
  have hh : ∀ slot, slot < ss.count → ss.keys slot ≠ key := by
    intro slot hu hs
    have hf := position_eq sorted hu hs
    exact absent (hf ▸ hu) (hf ▸ hs)
  constructor
  · rintro ⟨slot, hu, hm, hho⟩
    simp only [shiftIn] at hu hm hho
    split_ifs at hm hho with low hs hb
    · rw [if_neg (hm ▸ hh slot (by omega))]
      exact ⟨slot, by omega, hm, hho⟩
    · rw [if_pos hm.symm]
      exact (some.inj hho).symm
    · rw [if_neg (hm ▸ hh (slot - 1) (by omega))]
      exact ⟨slot - 1, by omega, hm, hho⟩
    · omega
  · intro ha
    split_ifs at ha with hs
    · refine ⟨ss.position key, by simp only [shiftIn]; omega, ?_, ?_⟩
      · simp [shiftIn, hs]
      · simp [shiftIn, ha]
    · obtain ⟨slot, hu, hm, hho⟩ := ha
      by_cases low : slot < ss.position key
      · exact ⟨slot, by simp only [shiftIn]; omega, by simpa [shiftIn, low] using hm,
          by simpa [shiftIn, low] using hho⟩
      · refine ⟨slot + 1, by simp only [shiftIn]; omega, ?_, ?_⟩
        · simp only [shiftIn]
          rw [if_neg (by omega), if_neg (by omega), if_pos (by omega), Nat.add_sub_cancel, hm]
        · simp only [shiftIn]
          rw [if_neg (by omega), if_neg (by omega), if_pos (by omega), Nat.add_sub_cancel, hho]

end

/-- **A new key gets a slot of its own.** -/
theorem insert_absent (hso : ss.Sorted) (hr : ss.count < capacity)
    (ha : ∀ ol, ¬ ss.Holds key ol) (v : C) :
    ∃ u, ss.insert key v = some u ∧ u.Sorted ∧ u.count = ss.count + 1 ∧ ∀ o s, u.Holds o s ↔
        if o = key then s = v else ss.Holds o s := by
  have hi : ss.position key ≤ ss.count := position_le
  have haw : ss.position key < ss.count → ss.keys (ss.position key) ≠ key := by
    intro hu hs
    obtain ⟨ol, s⟩ := isSome_iff_exists.mp ((hso.filled _).mpr hu)
    exact ha ol ⟨_, hu, hs, s⟩
  refine ⟨ss.shiftIn (ss.position key) key v, ?_, shiftIn_sorted hso haw hr, rfl,
    shiftIn_holds hso haw⟩
  unfold insert
  rw [if_neg (by omega), if_neg, if_neg (by omega)]
  rintro ⟨hs, hf⟩
  exact haw ((hso.filled _).mp hf) hs

end

/-! ### All slots in order -/

section

variable {slots : Slots capacity K C}

def entries (slots : Slots capacity K C) : List (K × C) :=
  (List.range slots.count).filterMap fun slot => (slots.values slot).map fun value =>
    (slots.keys slot, value)

omit [LinearOrder K] in
theorem mem_entries {key : K} {value : C} : (key, value) ∈ slots.entries ↔
    slots.Holds key value := by
  unfold entries Holds
  rw [mem_filterMap]
  refine exists_congr fun slot => and_congr mem_range ?_
  rw [map_eq_some_iff]
  constructor
  · intro found
    obtain ⟨stored, holds, same⟩ := found
    obtain ⟨here, rfl⟩ := Prod.mk.inj same
    exact ⟨here, holds⟩
  · intro found
    obtain ⟨rfl, holds⟩ := found
    exact ⟨value, holds, rfl⟩

theorem Sorted.pairwise_entries (hs : slots.Sorted) :
    slots.entries.Pairwise fun f s => f.1 < s.1 := by
  unfold entries
  rw [pairwise_filterMap]
  refine pairwise_lt_range.imp_of_mem fun {f s} _ hu hl one hh two ht => ?_
  obtain ⟨_, _, rfl⟩ := map_eq_some_iff.mp hh
  obtain ⟨_, _, rfl⟩ := map_eq_some_iff.mp ht
  exact hs.increasing f s hl (mem_range.mp hu)

end

end Slots

end Proteus.Library
