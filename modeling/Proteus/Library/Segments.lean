/-
**Lists cut into segments.**

A list that is the concatenation of segments `0 … n - 1` has each of them at its start, the sum of
the lengths before it. A write inside a segment changes that segment alone.

A list is clustered by a function to numbers below `n` if its segments are its classes, each in the
order of the input. That is what a counting sort produces.

* `segments_set` — a write to a position of a segment; `segments_drop` — a segment is read back.
* `exists_segments` — a list of the right length is cut in some way.
* `clustered_perm` — clustering permutes.
* `clustered_clustered` — **two clusterings are one**, by the pair of the two functions, the later
  one first.
-/

import Proteus.Library.Loops

namespace Proteus.Library

open List Function

/-! ### Tables -/

section

variable {β : Type*} {n : Nat} {f g : Nat → β}

def tabulate (n : Nat) (f : Nat → β) : List β := (List.range n).map f

@[simp] theorem length_tabulate : (tabulate n f).length = n := by
  simp [tabulate]

theorem get_tabulate {i : Nat} (hi : i < n) : (tabulate n f)[i]? = some (f i) := by
  simp [tabulate, hi]

theorem tabulate_congr (hs : ∀ i < n, f i = g i) : tabulate n f = tabulate n g :=
  map_congr_left fun i hm => hs i (mem_range.mp hm)

theorem replicate_eq_tabulate (n : Nat) (v : β) : List.replicate n v = tabulate n fun _ => v := by
  simp [tabulate]

theorem tabulate_set (i : Nat) (v : β) : (tabulate n f).set i v = tabulate n (update f i v) := by
  apply ext_getElem (by simp)
  intro j hi _
  simp only [tabulate, getElem_set, getElem_map, getElem_range, update_apply]
  exact if_congr eq_comm rfl rfl

end

/-! ### Segments -/

section

variable {α : Type*} {n c k : Nat} {segment s : Nat → List α}

def startOf (length : Nat → Nat) (c : Nat) : Nat := (tabulate c length).sum

theorem startOf_succ (l : Nat → Nat) (c : Nat) : startOf l (c + 1) = startOf l c + l c := by
  simp [startOf, tabulate, range_succ]

theorem startOf_congr {l o : Nat → Nat} (hs : ∀ d < c, l d = o d) : startOf l c = startOf o c :=
  congrArg List.sum (tabulate_congr hs)

theorem startOf_le (l : Nat → Nat) (hi : c ≤ n) : startOf l c ≤ startOf l n := by
  induction n with
  | zero => rw [Nat.le_zero.mp hi]
  | succ n ih =>
    rcases Nat.lt_or_ge n c with hl | hb
    · rw [show c = n + 1 from by omega]
    · rw [startOf_succ]
      exact Nat.le_add_right_of_le (ih hb)

def segments (n : Nat) (segment : Nat → List α) : List α := (List.range n).flatMap segment

@[simp] theorem segments_zero : segments 0 s = [] := rfl

theorem segments_succ : segments (n + 1) s = segments n s ++ s n := by
  simp [segments, range_succ, flatMap_append]

theorem segments_congr {o : Nat → List α} (hs : ∀ c < n, s c = o c) :
    segments n s = segments n o := by
  induction n with
  | zero => rfl
  | succ n ih =>
    rw [segments_succ, segments_succ, ih fun c hi => hs c (Nat.lt_succ_of_lt hi),
      hs n (Nat.lt_succ_self n)]

theorem length_segments : (segments n s).length = startOf (fun c => (s c).length) n := by
  induction n with
  | zero => rfl
  | succ n ih => rw [segments_succ, length_append, ih, startOf_succ]

theorem map_segments {β : Type*} (f : α → β) : (segments n s).map f = segments n fun c =>
    (s c).map f := by
  simp [segments, map_flatMap]

theorem sum_map_segments (f : α → Nat) :
    ((segments n s).map f).sum = startOf (fun c => ((s c).map f).sum) n := by
  induction n with
  | zero => rfl
  | succ n ih => rw [segments_succ, map_append, sum_append, ih, startOf_succ]

theorem segments_split (hi : c < n) (s : Nat → List α) :
    ∃ a, ∀ o, segments n (update s c o) = segments c s ++ o ++ a := by
  induction n with
  | zero => exact absurd hi (Nat.not_lt_zero c)
  | succ n ih =>
    rcases Nat.lt_or_eq_of_le (Nat.le_of_lt_succ hi) with hb | rfl
    · obtain ⟨a, hs⟩ := ih hb
      refine ⟨a ++ s n, fun o => ?_⟩
      rw [segments_succ, hs, update_of_ne (Nat.ne_of_gt hb), append_assoc _ a]
    · refine ⟨[], fun o => ?_⟩
      rw [segments_succ, update_self, append_nil]
      congr 1
      exact segments_congr fun d hb => update_of_ne (Nat.ne_of_lt hb) ..

/-- **A write** inside a segment. -/
theorem segments_set (hi : c < n) (hw : k < (s c).length) (v : α) :
    (segments n s).set (startOf (fun c => (s c).length) c + k) v =
      segments n (update s c ((s c).set k v)) := by
  obtain ⟨a, hs⟩ := segments_split hi s
  have hwh := hs (s c)
  rw [update_eq_self] at hwh
  rw [hwh, hs, append_assoc, append_assoc, ← length_segments,
    set_append_right _ _ (Nat.le_add_right ..), Nat.add_sub_cancel_left, set_append_left _ _ hw]

/-- **A segment is read back** from its start on. -/
theorem segments_drop (hi : c < n) :
    ∃ a, (segments n s).drop (startOf (fun c => (s c).length) c) = s c ++ a := by
  obtain ⟨a, hs⟩ := segments_split hi s
  have hw := hs (s c)
  rw [update_eq_self] at hw
  refine ⟨a, ?_⟩
  rw [hw, append_assoc, ← length_segments, drop_left]

theorem segments_position (hi : c < n) (hw : k < (s c).length) :
    startOf (fun c => (s c).length) c + k < (segments n s).length := by
  have hn := startOf_succ (fun c => (s c).length) c
  have hb := startOf_le (fun c => (s c).length) (show c + 1 ≤ n from hi)
  rw [length_segments]
  omega

theorem exists_segments (l : Nat → Nat) (xs : List α) (all : xs.length = startOf l n) :
    ∃ segment, xs = segments n segment ∧ ∀ c < n, (segment c).length = l c := by
  induction n generalizing xs with
  | zero =>
      exact ⟨fun _ => [], length_eq_zero_iff.mp all, fun c hn => absurd hn (Nat.not_lt_zero c)⟩
  | succ n ih =>
    rw [startOf_succ] at all
    obtain ⟨segment, hf, hl⟩ := ih (xs.take (startOf l n)) (by rw [length_take]; omega)
    refine ⟨update segment n (xs.drop (startOf l n)), ?_, fun c hi => ?_⟩
    · rw [segments_succ, update_self, segments_congr fun d hb => update_of_ne (Nat.ne_of_lt hb) ..,
        ← hf,
        take_append_drop]
    · rcases Nat.lt_or_eq_of_le (Nat.le_of_lt_succ hi) with hb | rfl
      · rw [update_of_ne (Nat.ne_of_lt hb)]
        exact hl c hb
      · rw [update_self, length_drop]
        omega

theorem segments_mul (m n : Nat) (s : Nat → List α) :
    segments (n * m) s = segments n fun hi => segments m fun lo => s (hi * m + lo) := by
  induction n with
  | zero => rw [Nat.zero_mul, segments_zero, segments_zero]
  | succ n ih =>
    rw [segments_succ, ← ih, Nat.succ_mul]
    simp only [segments, range_add, flatMap_append, flatMap_map]

end

/-! ### Clustering -/

section

variable {α : Type*} {n : Nat} {classOf co : α → Nat} {items xs : List α}

/-- The elements of a class. -/
def classItems (classOf : α → Nat) (items : List α) (c : Nat) : List α :=
  items.filter fun item => classOf item = c

theorem classItems_append_self (co : α → Nat) (xs : List α) (x : α) :
    classItems co (xs ++ [x]) (co x) = classItems co xs (co x) ++ [x] := by
  simp [classItems, filter_append]

theorem classItems_append_other {c : Nat} (xs : List α) {x : α} (ho : co x ≠ c) :
    classItems co (xs ++ [x]) c = classItems co xs c := by
  simp [classItems, filter_append, ho]

def clustered (n : Nat) (classOf : α → Nat) (items : List α) : List α :=
  segments n (classItems classOf items)

theorem classItems_clustered (c : Nat) :
    classItems co (clustered n co xs) c = if c < n then classItems co xs c else [] := by
  unfold clustered
  induction n with
  | zero => rfl
  | succ n ih =>
    have hb : classItems co (segments (n + 1) (classItems co xs)) c =
        classItems co (segments n (classItems co xs)) c ++
          classItems co (classItems co xs n) c := by
      rw [segments_succ, classItems, filter_append]
      rfl
    rw [hb, ih]
    by_cases own : n = c
    · subst own
      rw [if_neg (Nat.lt_irrefl n), if_pos (Nat.lt_succ_self n), nil_append]
      simp [classItems, filter_filter]
    · have hn : classItems co (classItems co xs n) c = [] := by
        simp only [classItems, filter_filter, filter_eq_nil_iff, Bool.and_eq_true,
          decide_eq_true_eq]
        intro x _ hb
        exact own (hb.2.symm.trans hb.1)
      rw [hn, append_nil]
      exact if_congr (by omega) rfl rfl

/-- **Clustering permutes.** -/
theorem clustered_perm (hi : ∀ x ∈ xs, co x < n) : (clustered n co xs).Perm xs := by
  suffices hs : SameByKey co (clustered n co xs) xs from hs.perm
  intro c
  have hs : classItems co (clustered n co xs) c = _ := classItems_clustered c
  by_cases hsm : c < n
  · rw [if_pos hsm] at hs
    exact hs
  · rw [if_neg hsm] at hs
    refine hs.trans (filter_eq_nil_iff.mpr fun x hm => ?_).symm
    rw [decide_eq_true_eq]
    exact fun own => hsm (own ▸ hi x hm)

/-- **Clustering sorts.** -/
theorem clustered_sorted : (clustered n co xs).Pairwise fun f s => co f ≤ co s := by
  have own : ∀ c, ∀ x ∈ classItems co xs c, co x = c := fun c x hm =>
    of_decide_eq_true (mem_filter.mp hm).2
  unfold clustered
  induction n with
  | zero => exact .nil
  | succ n ih =>
    rw [segments_succ, pairwise_append]
    refine ⟨ih, pairwise_of_forall_mem_list fun f one s two => ?_, fun f one s two => ?_⟩
    · rw [own n f one, own n s two]
    · obtain ⟨c, hb, hm⟩ := mem_flatMap.mp one
      rw [own c f hm, own n s two]
      exact (mem_range.mp hb).le

theorem sum_classes (hi : ∀ x ∈ xs, co x < n) :
    startOf (fun c => (classItems co xs c).length) n = xs.length := by
  rw [← length_segments]
  exact (clustered_perm hi).length_eq

theorem classItems_segments (c : Nat) (s : Nat → List α) :
    classItems co (segments n s) c = segments n fun d => classItems co (s d) c := by
  simp [classItems, segments, filter_flatMap]

/-- **Two clusterings are one.** -/
theorem clustered_clustered {m : Nat} {lo : α → Nat} (high : α → Nat) (hi : ∀ x ∈ xs, lo x < m) :
    clustered n high (clustered m lo xs) = clustered (n * m) (fun x => high x * m + lo x) xs := by
  unfold clustered
  rw [segments_mul]
  refine segments_congr fun c _ => ?_
  rw [classItems_segments]
  refine segments_congr fun d hsm => ?_
  unfold classItems
  rw [filter_filter]
  refine filter_congr fun x hm => ?_
  have hb := hi x hm
  rw [Bool.eq_iff_iff, Bool.and_eq_true, decide_eq_true_eq, decide_eq_true_eq, decide_eq_true_eq]
  constructor
  · intro hbo
    show high x * m + lo x = c * m + d
    rw [hbo.1, hbo.2]
  · intro hs
    -- the two numbers are quotient and remainder by `m`
    have hq := congrArg (· / m) hs
    have hr := congrArg (· % m) hs
    simp only [Nat.mul_comm _ m, Nat.mul_add_div (Nat.zero_lt_of_lt hsm), Nat.div_eq_of_lt hb,
      Nat.div_eq_of_lt hsm, Nat.mul_add_mod, Nat.mod_eq_of_lt hb, Nat.mod_eq_of_lt hsm] at hq hr
    exact ⟨by omega, hr⟩

end

end Proteus.Library
