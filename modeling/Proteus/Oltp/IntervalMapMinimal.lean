/-
**The intervals that an interval map stores** (`oltp/util/interval-map.hpp`).

What `getValue` answers is not only a matter of the intervals (`IntervalMap`). Here it is the
intervals alone: the value at a key is the one at the greatest start that is not above it, whatever
`upper_bound` and `touched` are. The keys are those of an unsigned type of some width, so that the
start behind the last key is `0` again; a map comes from either constructor and is changed by every
operation, `reset` included.

* `Reached`, `run_reached` — the starts of a reachable map are keys, and one that was never touched
  has a single start: this is why `consolidate` may leave it alone.
* `run_minimal` — if the first start is `0`, `upsert` changes one key, and `consolidate` changes
  none and leaves the least map of the function, the only one with so few starts.
-/

import Proteus.Library.Machine
import Proteus.Oltp.IntervalMap

namespace Proteus.Oltp.IntervalMap

open Library OrderedMap List Option

variable {V : Type} [DecidableEq V] [Zero V]

/-! ### All operations -/

/-- The constructor with a start. -/
def create (start : Nat) (val : V) : IntervalMap V :=
  ⟨OrderedMap.singleton start val, start, false⟩

def reset (intervals : IntervalMap V) (value : V) : IntervalMap V :=
  { intervals with map := OrderedMap.singleton 0 value }

inductive Call (V : Type) where
  | reset (value : V)
  | apply (op : Op V)

/-- One call on a map whose keys are of a type of some width. -/
def Call.step (width : Nat) (intervals : IntervalMap V) : Call V → Option (IntervalMap V)
  | .reset value => some (intervals.reset value)
  | .apply (.upsert key value) => intervals.upsertNext ((key + 1) % 2 ^ width) key value
  | .apply op => op.step intervals

/-- The calls on a map from either constructor. -/
def intervalMap (width : Nat) : Machine (IntervalMap V) (Call V) where
  Start intervals := intervals = empty ∨ ∃ start < 2 ^ width, ∃ val, intervals = create start val
  Enabled _
    | .apply (.upsert key _) => key < 2 ^ width
    | _ => True
  next := Call.step width

/-! ### Reachable maps -/

/-- The starts are keys, and without a change there is one of them. -/
structure Reached (width : Nat) (intervals : IntervalMap V) : Prop where
  fit : ∀ entry ∈ intervals.map.entries, entry.1 < 2 ^ width
  untouched : intervals.touched = false → ∃ entry, intervals.map.entries = [entry]

section

variable {width w next key : Nat} {intervals after : IntervalMap V} {value : V}

omit [Zero V] in
theorem upsertNext_cases (done : intervals.upsertNext next key value = some after) :
    after = intervals ∨ after.touched = true ∧ ∀ entry ∈ after.map.entries,
        entry.1 = next ∨ entry.1 = key ∨ ∃ old ∈ intervals.map.entries, entry.1 = old.1 := by
  have emplaced : ∀ (old new : V) (entry : Nat × V),
      entry ∈ ((intervals.map.emplace next old).emplace key new).entries →
      entry.1 = next ∨ entry.1 = key ∨ ∃ old ∈ intervals.map.entries, entry.1 = old.1 := by
    intro old new entry inside
    rcases mem_emplace.mp inside with earlier | ⟨rfl, _⟩
    · rcases mem_emplace.mp earlier with there | ⟨rfl, _⟩
      · exact .inr (.inr ⟨entry, there, rfl⟩)
      · exact .inl rfl
    · exact .inr (.inl rfl)
  unfold upsertNext at done
  split at done
  · split at done
    · cases done
    · split_ifs at done with same
      · exact .inl (some.inj done).symm
      · cases done
        exact .inr ⟨rfl, emplaced _ _⟩
  · split_ifs at done with start same
    · exact .inl (some.inj done).symm
    · cases done
      refine .inr ⟨rfl, fun entry inside => ?_⟩
      obtain ⟨old, there, rfl⟩ := mem_assign.mp inside
      have kept : (if old.1 = key then (old.1, value) else old).1 = old.1 := by split_ifs <;> rfl
      rw [kept]
      rcases mem_emplace.mp there with earlier | ⟨rfl, _⟩
      · exact .inr (.inr ⟨old, earlier, rfl⟩)
      · exact .inl rfl
    · split at done
      · cases done
      · split_ifs at done with same
        · exact .inl (some.inj done).symm
        · cases done
          exact .inr ⟨rfl, emplaced _ _⟩

omit [Zero V] in
theorem Reached.upsertNext (reached : Reached width intervals) (fits : key < 2 ^ width)
    (wraps : next < 2 ^ width)
    (done : intervals.upsertNext next key value = some after) : Reached width after := by
  rcases upsertNext_cases done with rfl | ⟨touched, starts⟩
  · exact reached
  · refine ⟨fun entry inside => ?_, fun untouched => nomatch touched.symm.trans untouched⟩
    rcases starts entry inside with same | same | ⟨old, there, same⟩
    · rwa [same]
    · rwa [same]
    · rw [same]
      exact reached.fit old there

omit [Zero V] in
theorem Reached.updateByValue (reached : Reached width intervals) (oldval newval : V) :
    Reached width (intervals.updateByValue oldval newval) := by
  refine ⟨fun entry inside => ?_, fun untouched => nomatch untouched⟩
  obtain ⟨old, there, rfl⟩ := mem_map.mp inside
  exact reached.fit old there

omit [Zero V] in
theorem Reached.consolidate (reached : Reached width intervals) :
    Reached width intervals.consolidate := by
  unfold IntervalMap.consolidate
  split_ifs with touched
  · refine ⟨fun entry inside => ?_, fun untouched => nomatch touched.symm.trans untouched⟩
    exact reached.fit entry (mem_of_mem_mergeRuns inside)
  · exact reached

/-- **One call keeps it.** -/
theorem Reached.step (hr : Reached w intervals) (c : Call V)
    (he : (intervalMap w).Enabled intervals c)
    (hd : (intervalMap w).next intervals c = some after) : Reached w after := by
  cases c with
  | reset value =>
    cases hd
    refine ⟨fun e hi => ?_, fun _ => ⟨_, rfl⟩⟩
    rw [mem_singleton.mp hi]
    exact Nat.two_pow_pos w
  | apply op =>
    cases op with
    | upsert key value => exact hr.upsertNext he (Nat.mod_lt _ (Nat.two_pow_pos w)) hd
    | updateByValue o n | updateByValueWithCount o n =>
      cases hd
      exact hr.updateByValue o n
    | consolidate =>
      cases hd
      exact hr.consolidate
    | updateAndConsolidate o n =>
      cases hd
      exact (hr.updateByValue o n).consolidate

theorem run_reached {cs : List (Call V)}
    (run : (intervalMap w).Run (fun _ _ => True) cs intervals) : Reached w intervals := by
  refine run.invariant (Reached w) (fun s hin => ?_) fun _ c _ hr he _ hd => hr.step c he hd
  rcases hin with rfl | ⟨f, hf, val, rfl⟩
  · refine ⟨fun e hi => ?_, fun _ => ⟨_, rfl⟩⟩
    rw [mem_singleton.mp hi]
    exact Nat.two_pow_pos w
  · refine ⟨fun e hi => ?_, fun _ => ⟨_, rfl⟩⟩
    rw [mem_singleton.mp hi]
    exact hf

end

/-! ### What is stored -/

section

variable {width : Nat} {intervals : IntervalMap V}

omit [DecidableEq V] in
theorem represents_floor (map : OrderedMap Nat V) (zero : ∃ start ∈ map.entries, start.1 = 0) :
    Represents ⟨map, 0, true⟩ (map.floor 0) where
  floor _ := rfl
  zero := zero
  bound := by
    obtain ⟨start, inside, _⟩ := zero
    exact ⟨start, inside, Nat.zero_le _⟩
  untouched := nofun

omit [Zero V] in
theorem upsert_map (key : Nat) (value : V) (bound : Nat) (touched : Bool) :
    (intervals.upsert key value).map IntervalMap.map =
      (upsert ⟨intervals.map, bound, touched⟩ key value).map IntervalMap.map := by
  unfold upsert upsertNext
  dsimp only
  split
  · split
    · rfl
    · split_ifs <;> rfl
  · split_ifs
    · rfl
    · rfl
    · split
      · rfl
      · split_ifs <;> rfl

/-- **`upsert` changes one key.** -/
theorem upsert_floor (hz : ∃ s ∈ intervals.map.entries, s.1 = 0) (k : Nat) (v : V) :
    ∃ u, intervals.upsert k v = some u ∧
      u.map.floor 0 = Function.update (intervals.map.floor 0) k v := by
  obtain ⟨st, hd, rep, _⟩ := upsert_represents (represents_floor intervals.map hz) k v
  have hm := @upsert_map V _ intervals k v 0 true
  rw [hd, map_some] at hm
  obtain ⟨u, hf, hs⟩ := map_eq_some_iff.mp hm
  refine ⟨u, hf, ?_⟩
  rw [hs]
  funext p
  exact rep.floor p

/-- **`consolidate` changes no key.** -/
theorem consolidate_floor : intervals.consolidate.map.floor 0 = intervals.map.floor 0 := by
  funext p
  unfold consolidate
  split_ifs
  · exact floor_mergeRuns 0 _ p
  · rfl

omit [Zero V] in
theorem consolidate_zero (zero : ∃ start ∈ intervals.map.entries, start.1 = 0) :
    ∃ start ∈ intervals.consolidate.map.entries, start.1 = 0 := by
  obtain ⟨start, inside, first⟩ := zero
  unfold consolidate
  split_ifs
  · exact ⟨start, least_mem_mergeRuns inside fun other _ => by omega, first⟩
  · exact ⟨start, inside, first⟩

omit [Zero V] in
/-- **After `consolidate` neighbouring starts have different values.** -/
theorem Reached.alternating (reached : Reached width intervals) :
    Alternating intervals.consolidate.map.entries := by
  unfold IntervalMap.consolidate
  split_ifs with touched
  · exact alternating_mergeRuns intervals.map
  · obtain ⟨entry, single⟩ := reached.untouched (Bool.eq_false_iff.mpr touched)
    rw [single]
    exact List.IsChain.singleton entry

/-- **The intervals are right**: in every reachable map that starts at `0`, `upsert` changes exactly
its key, as long as there is a next one; `consolidate` changes no key, leaves no two neighbouring
starts with one value, and a map with the same values and not more starts is the one it leaves. -/
theorem run_minimal {calls : List (Call V)}
    (run : (intervalMap width).Run (fun _ _ => True) calls intervals)
    (zero : ∃ value, intervals.map.entries.head? = some (0, value)) :
    (∀ key value, key + 1 < 2 ^ width → ∃ updated,
      (Call.apply (.upsert key value)).step width intervals = some updated ∧
        updated.map.floor 0 = Function.update (intervals.map.floor 0) key value) ∧
      intervals.consolidate.map.floor 0 = intervals.map.floor 0 ∧
      Alternating intervals.consolidate.map.entries ∧
      ∀ other : OrderedMap Nat V, (∃ value, other.entries.head? = some (0, value)) →
        (∀ point < 2 ^ width, other.floor 0 point = intervals.map.floor 0 point) →
        other.entries.length ≤ intervals.consolidate.map.entries.length →
        other = intervals.consolidate.map := by
  have hr := run_reached run
  have hst : ∀ {map : OrderedMap Nat V}, (∃ value, map.entries.head? = some (0, value)) →
      ∃ s ∈ map.entries, s.1 = 0 := by
    intro map hfi
    obtain ⟨value, hfi⟩ := hfi
    exact ⟨(0, value), mem_of_head? hfi, rfl⟩
  refine ⟨fun key value hf => ?_, consolidate_floor, hr.alternating, ?_⟩
  · have hn : (Call.apply (.upsert key value)).step width intervals =
        intervals.upsert key value := by
      show intervals.upsertNext ((key + 1) % 2 ^ width) key value = _
      rw [Nat.mod_eq_of_lt hf]
      rfl
    rw [hn]
    exact upsert_floor (hst zero) key value
  · intro other hb hs hsh
    rw [← consolidate_floor] at hs
    exact hr.alternating.eq_of_length_le hr.consolidate.fit (consolidate_zero (hst zero))
      (hst hb) hs hsh

/-- Two keys of one value: the map that is left has a start for both. -/
theorem run_minimal_two : ∃ intervals : IntervalMap Nat,
    (intervalMap 64).Run (fun _ _ => True) [.apply (.upsert 5 1), .apply (.upsert 6 1)] intervals ∧
      intervals.consolidate.map.entries = [(0, 0), (5, 1), (7, 0)] ∧
      Alternating intervals.consolidate.map.entries := by
  have hb : (intervalMap 64).Run (fun _ _ => True) [] (empty : IntervalMap Nat) :=
    .start (Or.inl rfl)
  have run : (intervalMap 64).Run (fun _ _ => True) [.apply (.upsert 5 1), .apply (.upsert 6 1)]
      (⟨⟨[(0, 0), (5, 1), (6, 1), (7, 0)], by unfold Increasing; decide⟩, 6, true⟩ :
          IntervalMap Nat) :=
    .step (.step hb (by show 5 < 2 ^ 64; decide) trivial rfl) (by show 6 < 2 ^ 64; decide) trivial
      rfl
  exact ⟨_, run, rfl, (run_minimal run ⟨0, rfl⟩).2.2.1⟩

end

end Proteus.Oltp.IntervalMap
