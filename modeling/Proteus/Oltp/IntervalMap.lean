/-
**The interval map of the snapshot columns** (`oltp/util/interval-map.hpp`).

An `IntervalMap` stores, in a `std::map`, the points where a total function of the row numbers
changes its value, together with `upper_bound` and `touched`, which `getValue` reads before the map:
an untouched map, and every key from `upper_bound` on, answers `0` without a lookup.

### The abstract map

`Op.apply` is what each operation means on a total function: `upsert` changes one point,
`updateByValue` renames a value, `consolidate` does nothing. `Represents` connects the two: the
starts denote the function, and `getValue` answers either from them or `0` (`getValue_eq`).

### The fast path

* `upsert_represents`, `updateByValue_represents`, `consolidate_represents` — the stored intervals
  always denote the right function, whatever is applied (`run_represents`).
* `exact_iff` — `getValue` is right at every key exactly when the function is `0` from `upper_bound`
  on. Three operations keep that or break it on their own: `upsert` raises `upper_bound` only when
  it appends behind the last start, the two updates by value do not touch it.
* `run_exact_iff` — a sequence of operations is answered correctly in every state it reaches exactly
  when each of its steps is `Op.Covered` in the state it is applied to.
-/

import Proteus.Library.OrderedMap

namespace Proteus.Oltp

open Library List Option Function

/-- The starts of the intervals, and what the fast path of `getValue` reads. -/
structure IntervalMap (V : Type) where
  map : OrderedMap Nat V
  upperBound : Nat
  touched : Bool

namespace IntervalMap

variable {V : Type} [DecidableEq V] [Zero V]

/-- The default constructor. -/
def empty : IntervalMap V :=
  ⟨OrderedMap.singleton 0 0, 0, false⟩

def getValue (intervals : IntervalMap V) (key : Nat) : Option V :=
  if !intervals.touched || decide (intervals.upperBound ≤ key) then some 0
  else
    match intervals.map.lowerBound key with
    | [] => none
    | found :: _ =>
      if found.1 = key then some found.2 else (intervals.map.before key).getLast?.map Prod.snd

/-- `upsert`, where the point behind the key is `next`. -/
def upsertNext (next : Nat) (intervals : IntervalMap V) (key : Nat) (value : V) :
    Option (IntervalMap V) :=
  match intervals.map.lowerBound key with
  | [] =>
    match intervals.map.back with
    | none => none
    | some last =>
      if last.2 = value then some intervals
      else some ⟨(intervals.map.emplace next last.2).emplace key value, next, true⟩
  | found :: _ =>
    if found.1 = key then
      if found.2 = value then some intervals
      else some ⟨(intervals.map.emplace next found.2).assign key value, intervals.upperBound, true⟩
    else
      match (intervals.map.before key).getLast? with
      | none => none
      | some previous =>
        if previous.2 = value then some intervals
        else some ⟨(intervals.map.emplace next previous.2).emplace key value, intervals.upperBound,
          true⟩

/-- `none` as for `getValue`. -/
def upsert (intervals : IntervalMap V) (key : Nat) (value : V) : Option (IntervalMap V) :=
  intervals.upsertNext (key + 1) key value

/-- One value renamed. -/
def rename (oldval newval value : V) : V :=
  if value = oldval then newval else value

def updateByValue (intervals : IntervalMap V) (oldval newval : V) : IntervalMap V :=
  { intervals with map := intervals.map.mapValues (rename oldval newval), touched := true }

def updateByValueWithCount (intervals : IntervalMap V) (oldval newval : V) : Nat × IntervalMap V :=
  (intervals.map.entries.countP fun entry => entry.2 = oldval,
    { intervals with map := intervals.map.mapValues (rename oldval newval), touched := true })

def consolidate (intervals : IntervalMap V) : IntervalMap V :=
  if intervals.touched then
    { intervals with
      map := intervals.map.mergeRuns
      upperBound := (intervals.map.mergeRuns.back.map Prod.fst).getD intervals.upperBound }
  else intervals

def updateAndConsolidate (intervals : IntervalMap V) (oldval newval : V) : Nat × IntervalMap V :=
  let updated := intervals.updateByValueWithCount oldval newval
  (updated.1, updated.2.consolidate)

/-! ### Runs, and what they mean on a total function -/

inductive Op (V : Type) where
  | upsert (key : Nat) (value : V)
  | updateByValue (oldval newval : V)
  | updateByValueWithCount (oldval newval : V)
  | consolidate
  | updateAndConsolidate (oldval newval : V)

/-- One operation on the stored map. -/
def Op.step (intervals : IntervalMap V) : Op V → Option (IntervalMap V)
  | .upsert key value => intervals.upsert key value
  | .updateByValue oldval newval => some (intervals.updateByValue oldval newval)
  | .updateByValueWithCount oldval newval => some (intervals.updateByValueWithCount oldval newval).2
  | .consolidate => some intervals.consolidate
  | .updateAndConsolidate oldval newval => some (intervals.updateAndConsolidate oldval newval).2

def Op.apply (value : Nat → V) : Op V → Nat → V
  | .upsert key new => Function.update value key new
  | .updateByValue oldval newval => fun point => rename oldval newval (value point)
  | .updateByValueWithCount oldval newval => fun point => rename oldval newval (value point)
  | .consolidate => value
  | .updateAndConsolidate oldval newval => fun point => rename oldval newval (value point)

/-- A sequence of operations on the default-constructed map. -/
def run (ops : List (Op V)) : Option (IntervalMap V) :=
  ops.foldlM Op.step empty

/-- The same sequence on the function that is `0` everywhere. -/
def denote (ops : List (Op V)) : Nat → V :=
  ops.foldl Op.apply fun _ => 0

open OrderedMap

/-! ### The stored intervals denote the abstract map -/

omit [DecidableEq V] in
theorem floor_split (map : OrderedMap Nat V) (key point : Nat) :
    (map.emplace (key + 1) (map.floor 0 key)).floor 0 point = map.floor 0 point := by
  by_cases absent : ∀ entry ∈ map.entries, entry.1 ≠ key + 1
  · have same : map.floor 0 key = map.floor 0 (key + 1) :=
      floor_congr 0 fun entry inside => by
        have := absent entry inside
        omega
    rw [same]
    exact floor_emplace_self 0 map (key + 1) point
  · simp only [not_forall, not_not] at absent
    obtain ⟨found, inside, same⟩ := absent
    have kept : (map.emplace (key + 1) (map.floor 0 key)).entries = map.entries :=
      insertAbsent_of_mem _ map.sorted ⟨found, inside, same⟩
    rw [floor, kept, floor]

open Or

omit [Zero V] [DecidableEq V] in
theorem mem_split (map : OrderedMap Nat V) (key : Nat) (value : V) :
    ∃ entry ∈ (map.emplace (key + 1) value).entries, entry.1 = key + 1 := by
  by_cases absent : ∀ entry ∈ map.entries, entry.1 ≠ key + 1
  · exact ⟨(key + 1, value), mem_emplace.mpr (inr ⟨rfl, absent⟩), rfl⟩
  · simp only [not_forall, not_not] at absent
    obtain ⟨found, inside, same⟩ := absent
    exact ⟨found, mem_emplace.mpr (inl inside), same⟩

variable {map : OrderedMap Nat V} {key k : Nat} {intervals : IntervalMap V} {value : Nat → V}
    {op : Op V}

omit [Zero V] [DecidableEq V] in
theorem reach_split {point : Nat} {value : V} :
    (key ≤ point ∧ ∀ entry ∈ (map.emplace (key + 1) value).entries, key < entry.1 →
        point < entry.1) ↔ point = key := by
  constructor
  · rintro ⟨reach, next⟩
    obtain ⟨entry, inside, start⟩ := mem_split map key value
    have := next entry inside (by omega)
    omega
  · rintro rfl
    exact ⟨le_rfl, fun _ _ later => later⟩

omit [DecidableEq V] in
/-- **A point put between two starts.** -/
theorem floor_put (map : OrderedMap Nat V) (key : Nat) (value : V) (point : Nat)
    (absent : ∀ entry ∈ map.entries, entry.1 ≠ key) :
    ((map.emplace (key + 1) (map.floor 0 key)).emplace key value).floor 0 point =
      update (map.floor 0) key value point := by
  have stillAbsent : ∀ entry ∈ (map.emplace (key + 1) (map.floor 0 key)).entries,
      entry.1 ≠ key := by
    intro entry inside
    rcases mem_emplace.mp inside with old | ⟨rfl, _⟩
    · exact absent entry old
    · exact Nat.succ_ne_self key
  rw [floor_emplace 0 _ key value point stillAbsent, if_congr reach_split rfl rfl, floor_split,
    update_apply]

omit [DecidableEq V] in
/-- **A point put at a start.** -/
theorem floor_replace (map : OrderedMap Nat V) (key : Nat) (value : V) (point : Nat)
    (present : ∃ entry ∈ map.entries, entry.1 = key) :
    ((map.emplace (key + 1) (map.floor 0 key)).assign key value).floor 0 point =
      update (map.floor 0) key value point := by
  obtain ⟨found, inside, same⟩ := present
  rw [floor_assign 0 _ key value point ⟨found, mem_emplace.mpr (inl inside), same⟩,
    if_congr reach_split rfl rfl, floor_split, update_apply]

/-- **The stored map denotes `value`**: its starts do, one of them is `0`, one is not below
`upper_bound`, and an untouched map denotes `0`. -/
structure Represents (intervals : IntervalMap V) (value : Nat → V) : Prop where
  floor : ∀ point, intervals.map.floor 0 point = value point
  zero : ∃ start ∈ intervals.map.entries, start.1 = 0
  bound : ∃ start ∈ intervals.map.entries, intervals.upperBound ≤ start.1
  untouched : intervals.touched = false → ∀ point, value point = 0

omit [DecidableEq V] in
theorem empty_represents : Represents (empty : IntervalMap V) fun _ => 0 where
  floor point := by simp [empty, OrderedMap.floor, OrderedMap.singleton, floorFrom]
  zero := ⟨(0, 0), mem_cons_self, rfl⟩
  bound := ⟨(0, 0), mem_cons_self, le_rfl⟩
  untouched _ _ := rfl

omit [DecidableEq V] in
theorem Represents.previous (rep : Represents intervals value)
    (absent : ∀ entry ∈ intervals.map.entries, entry.1 ≠ key) :
    ∃ previous, (intervals.map.before key).getLast? = some previous ∧ previous.2 = value key := by
  obtain ⟨start, inside, zero⟩ := rep.zero
  have positive : start.1 < key := by
    have := absent start inside
    omega
  have nonempty := before_ne_nil ⟨start, inside, positive⟩
  refine ⟨(intervals.map.before key).getLast nonempty, List.getLast?_eq_some_getLast nonempty, ?_⟩
  rw [← rep.floor key, floor_eq_before 0 absent (List.getLast?_eq_some_getLast nonempty)]

omit [Zero V] [DecidableEq V] in
theorem absent_of_lowerBound {found : Nat × V}
    {rest : List (Nat × V)} (some : intervals.map.lowerBound key = found :: rest)
    (other : found.1 ≠ key) :
    ∀ entry ∈ intervals.map.entries, entry.1 ≠ key := by
  obtain ⟨_, later, least⟩ := lowerBound_eq_cons some
  intro entry inside same
  have := least entry inside same.ge
  omega

omit [DecidableEq V] in
/-- **What `getValue` answers**: the function below `upper_bound` of a touched map, else `0`. -/
theorem getValue_eq (rep : Represents intervals value) (key : Nat) : intervals.getValue key =
      some (if intervals.touched = true ∧ key < intervals.upperBound then value key else 0) := by
  unfold getValue
  by_cases slow : intervals.touched = true ∧ key < intervals.upperBound
  · have fast : ¬ ((!intervals.touched || decide (intervals.upperBound ≤ key)) = true) := by
      simp only [slow.1, Bool.not_true, Bool.false_or, decide_eq_true_eq, not_le]
      exact slow.2
    rw [if_neg fast, if_pos slow]
    obtain ⟨start, inside, bound⟩ := rep.bound
    cases located : intervals.map.lowerBound key with
    | nil =>
      have := lowerBound_eq_nil located start inside
      omega
    | cons found rest =>
      obtain ⟨member, _, _⟩ := lowerBound_eq_cons located
      by_cases same : found.1 = key
      · subst same
        simp only [if_true]
        rw [← rep.floor found.1, floor_of_mem 0 member]
      · simp only [if_neg same]
        obtain ⟨previous, last, equal⟩ := rep.previous (absent_of_lowerBound located same)
        rw [last, ← equal]
        rfl
  · have fast : (!intervals.touched || decide (intervals.upperBound ≤ key)) = true := by
      rcases Bool.eq_false_or_eq_true intervals.touched with touched | untouched
      · simp only [touched, true_and, not_lt] at slow
        simp [slow]
      · simp [untouched]
    rw [if_pos fast, if_neg slow]

omit [DecidableEq V] in
/-- **`getValue` is right everywhere exactly when the function is `0` from `upper_bound` on.** -/
theorem exact_iff (rep : Represents intervals value) :
    (∀ key, intervals.getValue key = some (value key)) ↔
      ∀ key, intervals.upperBound ≤ key → value key = 0 := by
  constructor
  · intro exact key late
    have answer := exact key
    rw [getValue_eq rep, if_neg fun slow => absurd slow.2 (not_lt.mpr late)] at answer
    exact (some.inj answer).symm
  · intro quiet key
    rw [getValue_eq rep]
    by_cases slow : intervals.touched = true ∧ key < intervals.upperBound
    · rw [if_pos slow]
    · rw [if_neg slow]
      rcases Bool.eq_false_or_eq_true intervals.touched with touched | untouched
      · simp only [touched, true_and, not_lt] at slow
        rw [quiet key slow]
      · rw [rep.untouched untouched]

/-! ### Every operation keeps the denotation -/

omit [DecidableEq V] in
theorem Represents.put (rep : Represents intervals value)
    (new : V) {bound : Nat} (absent : ∀ entry ∈ intervals.map.entries, entry.1 ≠ key)
    (raised : bound = key + 1 ∨ bound = intervals.upperBound) :
    Represents ⟨(intervals.map.emplace (key + 1) (value key)).emplace key new, bound, true⟩
      (update value key new) where
  floor point := by
    rw [← rep.floor key, floor_put intervals.map key new point absent, funext rep.floor]
  zero := by
    obtain ⟨start, inside, zero⟩ := rep.zero
    exact ⟨start, mem_emplace.mpr (inl (mem_emplace.mpr (inl inside))), zero⟩
  bound := by
    rcases raised with rfl | rfl
    · obtain ⟨start, inside, same⟩ := mem_split intervals.map key (value key)
      exact ⟨start, mem_emplace.mpr (inl inside), same.ge⟩
    · obtain ⟨start, inside, above⟩ := rep.bound
      exact ⟨start, mem_emplace.mpr (inl (mem_emplace.mpr (inl inside))), above⟩
  untouched touched := by cases touched

omit [Zero V] [DecidableEq V] in
theorem exists_mem_assign {value : V} (holds : Nat → Prop) (start : ∃ entry ∈ map.entries,
    holds entry.1) :
    ∃ entry ∈ (map.assign key value).entries, holds entry.1 := by
  obtain ⟨entry, inside, kept⟩ := start
  refine ⟨if entry.1 = key then (entry.1, value) else entry, mem_assign.mpr ⟨entry, inside, rfl⟩,
    ?_⟩
  split_ifs <;> exact kept

omit [DecidableEq V] in
theorem Represents.replace (rep : Represents intervals value) (new : V)
    (present : ∃ entry ∈ intervals.map.entries, entry.1 = key) :
    Represents ⟨(intervals.map.emplace (key + 1) (value key)).assign key new, intervals.upperBound,
      true⟩
      (update value key new) where
  floor point := by
    rw [← rep.floor key, floor_replace intervals.map key new point present, funext rep.floor]
  zero := by
    obtain ⟨start, inside, zero⟩ := rep.zero
    exact exists_mem_assign (fun start => start = 0) ⟨start, mem_emplace.mpr (inl inside), zero⟩
  bound := by
    obtain ⟨start, inside, above⟩ := rep.bound
    exact exists_mem_assign (fun start => intervals.upperBound ≤ start)
      ⟨start, mem_emplace.mpr (inl inside), above⟩
  untouched touched := by cases touched

variable (rep : Represents intervals value)

include rep

omit [DecidableEq V] in
theorem Represents.unchanged {new : V} (same : value key = new) :
    Represents intervals (update value key new) := by
  rw [← same, update_eq_self]
  exact rep

/-- **`upsert` changes one point**, and raises `upper_bound` only behind the last start. -/
theorem upsert_represents (k : Nat) (new : V) : ∃ u, intervals.upsert k new = some u ∧
      Represents u (update value k new) ∧
      u.upperBound = if value k ≠ new ∧ ∀ e ∈ intervals.map.entries, e.1 < k then k + 1
        else intervals.upperBound := by
  unfold upsert upsertNext
  cases hlo : intervals.map.lowerBound k with
  | nil =>
    have hap := lowerBound_eq_nil hlo
    have ha : ∀ e ∈ intervals.map.entries, e.1 ≠ k := fun e hi => (hap e hi).ne
    obtain ⟨ps, hl, he⟩ := rep.previous ha
    rw [before_eq_entries hlo] at hl
    simp only [show intervals.map.back = some ps from hl, he]
    by_cases hs : value k = new
    · rw [if_pos hs, if_neg fun hc => hc.1 hs]
      exact ⟨_, rfl, rep.unchanged hs, rfl⟩
    · rw [if_neg hs, if_pos ⟨hs, hap⟩]
      exact ⟨_, rfl, rep.put new ha (inl rfl), rfl⟩
  | cons f tl =>
    obtain ⟨hm, hla, _⟩ := lowerBound_eq_cons hlo
    have hin : ¬ (value k ≠ new ∧ ∀ e ∈ intervals.map.entries, e.1 < k) :=
      fun hc => absurd (hc.2 f hm) (not_lt.mpr hla)
    rw [if_neg hin]
    by_cases hst : f.1 = k
    · have he : f.2 = value k := by
        rw [← rep.floor k, ← hst, floor_of_mem 0 hm]
      simp only [if_pos hst, he]
      by_cases hs : value k = new
      · rw [if_pos hs]
        exact ⟨_, rfl, rep.unchanged hs, rfl⟩
      · rw [if_neg hs]
        exact ⟨_, rfl, rep.replace new ⟨f, hm, hst⟩, rfl⟩
    · have ha := absent_of_lowerBound hlo hst
      obtain ⟨ps, hl, he⟩ := rep.previous ha
      simp only [if_neg hst, hl, he]
      by_cases hs : value k = new
      · rw [if_pos hs]
        exact ⟨_, rfl, rep.unchanged hs, rfl⟩
      · rw [if_neg hs]
        exact ⟨_, rfl, rep.put new ha (inr rfl), rfl⟩

/-- **`updateByValue` renames a value everywhere** and leaves `upper_bound` alone. -/
theorem updateByValue_represents (o n : V) :
    Represents (intervals.updateByValue o n) fun p => rename o n (value p) where
  floor p := by
    obtain ⟨s, hi, hz⟩ := rep.zero
    rw [updateByValue, floor_mapValues 0 _ _ p ⟨s, hi, by omega⟩, rep.floor]
  zero := by
    obtain ⟨s, hi, hz⟩ := rep.zero
    exact ⟨_, mem_map_of_mem hi, hz⟩
  bound := by
    obtain ⟨s, hi, ha⟩ := rep.bound
    exact ⟨_, mem_map_of_mem hi, ha⟩
  untouched ht := by cases ht

theorem Represents.merged_last :
    ∃ l, intervals.map.mergeRuns.back = some l ∧ l ∈ intervals.map.mergeRuns.entries ∧
      ∀ p, l.1 ≤ p → value p = l.2 := by
  obtain ⟨s, hi, hz⟩ := rep.zero
  have hfi := least_mem_mergeRuns hi fun o _ => by omega
  obtain ⟨l, hf, hm, hr⟩ := floor_from_back 0 (ne_nil_of_mem hfi)
  refine ⟨l, hf, hm, fun p hl => ?_⟩
  rw [← rep.floor p, ← floor_mergeRuns, hr p hl]

theorem consolidate_represents : Represents intervals.consolidate value := by
  unfold consolidate
  split_ifs with ht
  · obtain ⟨l, hf, hm, _⟩ := rep.merged_last
    obtain ⟨s, hi, hz⟩ := rep.zero
    exact
      { floor := fun p => by rw [floor_mergeRuns, rep.floor]
        zero := ⟨s, least_mem_mergeRuns hi fun o _ => by omega, hz⟩
        bound := ⟨l, hm, by simp only [hf, map_some, getD_some, le_refl]⟩
        untouched := fun hu => nomatch ht.symm.trans hu }
  · exact rep

/-- **Every operation means what it means on the function.** -/
theorem step_represents (op : Op V) :
    ∃ u, op.step intervals = some u ∧ Represents u (op.apply value) := by
  cases op with
  | upsert key new =>
    obtain ⟨u, hd, hk, _⟩ := upsert_represents rep key new
    exact ⟨u, hd, hk⟩
  | updateByValue o n => exact ⟨_, rfl, updateByValue_represents rep o n⟩
  | updateByValueWithCount o n => exact ⟨_, rfl, updateByValue_represents rep o n⟩
  | consolidate => exact ⟨_, rfl, consolidate_represents rep⟩
  | updateAndConsolidate o n =>
    exact ⟨_, rfl, consolidate_represents (updateByValue_represents rep o n)⟩

omit rep

variable (ops : List (Op V))

theorem run_append (op : Op V) : run (ops ++ [op]) = (run ops).bind fun intervals =>
    op.step intervals := by
  simp only [run, foldlM_append, foldlM_cons, foldlM_nil, bind_pure]
  rfl

theorem denote_append (op : Op V) : denote (ops ++ [op]) = op.apply (denote ops) := by
  simp only [denote, foldl_append, foldl_cons, foldl_nil]

/-- **No run gets stuck, and each one stores the right intervals.** -/
theorem run_represents : ∃ intervals, run ops = some intervals ∧
    Represents intervals (denote ops) := by
  induction ops using List.reverseRecOn with
  | nil => exact ⟨empty, rfl, empty_represents⟩
  | append_singleton ops op ih =>
    obtain ⟨intervals, hr, rep⟩ := ih
    obtain ⟨u, hd, hk⟩ := step_represents rep op
    rw [run_append, hr, denote_append]
    exact ⟨u, hd, hk⟩

/-! ### The fast path -/

/-- The function is `0` wherever the fast path answers. -/
def Quiet (intervals : IntervalMap V) (value : Nat → V) : Prop :=
  ∀ key, intervals.upperBound ≤ key → value key = 0

/-- An operation that keeps the fast path right, by the state it is applied to. -/
def Op.Covered (intervals : IntervalMap V) : Op V → Prop
  | .upsert key value =>
    value = 0 ∨ key < intervals.upperBound ∨ ∀ entry ∈ intervals.map.entries, entry.1 < key
  | .updateByValue oldval newval => oldval ≠ 0 ∨ newval = 0
  | .updateByValueWithCount oldval newval => oldval ≠ 0 ∨ newval = 0
  | .consolidate => True
  | .updateAndConsolidate oldval newval => oldval ≠ 0 ∨ newval = 0

theorem quiet_upsert_iff {u : IntervalMap V}
    (rep : Represents intervals value) (hq : Quiet intervals value) {new : V}
    (hd : intervals.upsert k new = some u) :
    Quiet u (update value k new) ↔ (Op.upsert k new).Covered intervals := by
  obtain ⟨s, hw, _, hb⟩ := upsert_represents rep k new
  obtain rfl : u = s := some.inj (hd.symm.trans hw)
  unfold Quiet
  rw [hb]
  by_cases hap : value k ≠ new ∧ ∀ e ∈ intervals.map.entries, e.1 < k
  · rw [if_pos hap]
    refine ⟨fun _ => inr (inr hap.2), fun _ p hla => ?_⟩
    obtain ⟨st, hi, ha⟩ := rep.bound
    have := hap.2 st hi
    rw [update_of_ne (by omega), hq p (by omega)]
  · rw [if_neg hap]
    constructor
    · intro hs
      by_cases low : k < intervals.upperBound
      · exact inr (inl low)
      · exact inl (by simpa using hs k (not_lt.mp low))
    · intro hc p hla
      by_cases s : p = k
      · subst s
        rw [update_self]
        rcases hc with hz | low | hl
        · exact hz
        · omega
        · have hk : value p = new := not_not.mp fun hch => hap ⟨hch, hl⟩
          rw [← hk, hq p hla]
      · rw [update_of_ne s, hq p hla]

theorem covered_of_quiet {b a : IntervalMap V} {o n : V} (hq : Quiet b value)
    (hst : Quiet a fun p => rename o n (value p)) : o ≠ 0 ∨ n = 0 := by
  have far := hst (max b.upperBound a.upperBound) (le_max_right _ _)
  simp only [hq _ (le_max_left _ _), rename] at far
  by_cases hs : o = 0
  · rw [if_pos hs.symm] at far
    exact inr far
  · exact inl hs

theorem quiet_updateByValue {o n : V} (hq : Quiet intervals value) (hc : o ≠ 0 ∨ n = 0) :
    Quiet (intervals.updateByValue o n) fun p => rename o n (value p) := by
  intro key hl
  simp only [hq key hl, rename]
  split_ifs with hs
  · exact hc.resolve_left fun ho => ho hs.symm
  · rfl

theorem quiet_consolidate (rep : Represents intervals value) (hq : Quiet intervals value) :
    Quiet intervals.consolidate value := by
  unfold consolidate
  split_ifs with ht
  · obtain ⟨l, hf, hm, hc⟩ := rep.merged_last
    simp only [Quiet, hf, map_some, getD_some]
    intro key hl
    rw [hc key hl, ← hc (max l.1 intervals.upperBound) (le_max_left _ _)]
    exact hq _ (le_max_right _ _)
  · exact hq

/-- **One step keeps the fast path right exactly when it is covered.** -/
theorem quiet_step_iff {u : IntervalMap V} (rep : Represents intervals value)
    (hq : Quiet intervals value)
    (hd : op.step intervals = some u) :
    Quiet u (op.apply value) ↔ op.Covered intervals := by
  cases op with
  | upsert key new => exact quiet_upsert_iff rep hq hd
  | updateByValue o n | updateByValueWithCount o n =>
    cases hd
    exact ⟨covered_of_quiet hq, quiet_updateByValue hq⟩
  | consolidate =>
    cases hd
    exact ⟨fun _ => trivial, fun _ => quiet_consolidate rep hq⟩
  | updateAndConsolidate o n =>
    cases hd
    exact ⟨covered_of_quiet hq, fun hc => quiet_consolidate
      (updateByValue_represents rep o n) (quiet_updateByValue hq hc)⟩

/-- `getValue` is the function at every key. -/
def Exact (ops : List (Op V)) : Prop :=
  ∃ intervals, run ops = some intervals ∧ ∀ key, intervals.getValue key = some (denote ops key)

theorem exact_append_iff {ops : List (Op V)} (hr : run ops = some intervals) (he : Exact ops) :
    Exact (ops ++ [op]) ↔ op.Covered intervals := by
  obtain ⟨st, hf, rep⟩ := run_represents ops
  obtain rfl : intervals = st := some.inj (hr.symm.trans hf)
  obtain ⟨s, ha, han⟩ := he
  obtain rfl : intervals = s := some.inj (hr.symm.trans ha)
  obtain ⟨u, hd, hk⟩ := step_represents rep op
  have hn : run (ops ++ [op]) = some u := by rw [run_append, hr, bind_some, hd]
  rw [← quiet_step_iff rep ((exact_iff rep).mp han) hd]
  unfold Exact Quiet
  simp only [hn, denote_append, Option.some.injEq, exists_eq_left']
  exact exact_iff hk

/-- **A sequence of operations is answered exactly in every state it reaches, exactly when every one
of its steps is covered in the state it is applied to.** -/
theorem run_exact_iff (ops : List (Op V)) : (∀ done, done <+: ops → Exact done) ↔ ∀ done op,
    done ++ [op] <+: ops → ∃ intervals, run done = some intervals ∧ op.Covered intervals := by
  constructor
  · intro hex done op he
    obtain ⟨intervals, hr, _⟩ := run_represents done
    exact ⟨intervals, hr, (exact_append_iff hr (hex done ((prefix_append done [op]).trans he))).mp
        (hex _ he)⟩
  · intro hc done
    induction done using List.reverseRecOn with
    | nil =>
      intro _
      exact ⟨empty, rfl, (exact_iff empty_represents).mpr fun _ _ => rfl⟩
    | append_singleton done op ih =>
      intro he
      obtain ⟨intervals, hr, hk⟩ := hc done op he
      exact (exact_append_iff hr (ih ((prefix_append done [op]).trans he))).mpr hk

/-- Two adjacent keys: the second one stays above `upper_bound`. -/
theorem adjacent_upserts_lost : ¬ Exact ([.upsert 5 1, .upsert 6 2] : List (Op Nat)) := by
  rintro ⟨intervals, hr, ha⟩
  have hs : (run [.upsert 5 1, .upsert 6 2] : Option (IntervalMap Nat)).bind
      (fun intervals => intervals.getValue 6) = some 0 := by decide
  rw [hr, bind_some, ha 6] at hs
  revert hs
  decide

end IntervalMap

end Proteus.Oltp
