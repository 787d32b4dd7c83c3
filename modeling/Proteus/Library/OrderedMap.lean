/-
**A `std::map`, and the step function it denotes.**

A map with totally ordered keys is the strictly increasing list of its entries (`OrderedMap`: the
order is a field). An iterator is the suffix of the entries it stands in front of, so `end()` is the
empty suffix; what an iterator has already passed is `before`.

* `lowerBound`, `before`, `back` — the iterators `lower_bound(k)`, its predecessors, `rbegin()`;
  `upperBound`, `upTo` and `find` likewise. `find_emplace`, `find_assign` and `find_erase` say what
  the changes do to a lookup;
* `emplace` — insertion that leaves an existing key alone (`emplace`, `emplace_hint`,
  `try_emplace`), `assign` — the assignment through an iterator, `mapValues` — the assignment at
  every position of a traversal;
* `floorFrom`, `floor` — the value at the greatest key not above a point, the step function a map of
  interval starts stands for. `floor_emplace_self` splits an interval without changing it,
  `floor_emplace` says what a new start does, and `floor_mapValues` and `floor_mergeRuns` what a
  traversal does;
* `Alternating.eq_of_length_le` — a map whose neighbours differ is the only least one of its step
  function.
-/

import Mathlib

namespace Proteus.Library

open List Option

/-! ### Entry lists -/

section

variable {K V : Type} [LinearOrder K]

/-- Keys strictly increase along an entry list. -/
def Increasing (entries : List (K × V)) : Prop :=
  entries.Pairwise fun first second => first.1 < second.1

def insertAbsent (key : K) (value : V) : List (K × V) → List (K × V)
  | [] => [(key, value)]
  | entry :: rest =>
    if key < entry.1 then (key, value) :: entry :: rest
    else if entry.1 = key then entry :: rest
    else entry :: insertAbsent key value rest

def floorFrom (default : V) : List (K × V) → K → V
  | [], _ => default
  | entry :: rest, point => if entry.1 ≤ point then floorFrom entry.2 rest point else default

def mergeFrom [DecidableEq V] (current : K × V) : List (K × V) → List (K × V)
  | [] => [current]
  | next :: rest =>
    if current.2 = next.2 then mergeFrom current rest else current :: mergeFrom next rest

variable {entries es : List (K × V)}

open List.Pairwise

theorem mem_insertAbsent {k : K} {v : V} {e : K × V} (hso : Increasing es) :
    e ∈ insertAbsent k v es ↔ e ∈ es ∨ (e = (k, v) ∧ ∀ o ∈ es, o.1 ≠ k) := by
  induction es with
  | nil => simp [insertAbsent]
  | cons hd tl ih =>
    have ht := ih (of_cons hso)
    have hab : ∀ o ∈ tl, hd.1 < o.1 := fun o => rel_of_pairwise_cons hso
    unfold insertAbsent
    split_ifs with hsm hs
    · constructor
      · intro hm
        rcases mem_cons.mp hm with rfl | hm
        · refine Or.inr ⟨rfl, fun o hi => ?_⟩
          rcases mem_cons.mp hi with rfl | hi
          · exact hsm.ne'
          · exact (hsm.trans (hab o hi)).ne'
        · exact Or.inl hm
      · rintro (hm | ⟨rfl, _⟩)
        · exact mem_cons_of_mem _ hm
        · exact mem_cons_self
    · constructor
      · exact Or.inl
      · rintro (hm | ⟨_, ha⟩)
        · exact hm
        · exact absurd hs (ha hd mem_cons_self)
    · rw [mem_cons, ht, mem_cons]
      constructor
      · rintro (rfl | hm | ⟨rfl, ha⟩)
        · exact Or.inl (Or.inl rfl)
        · exact Or.inl (Or.inr hm)
        · refine Or.inr ⟨rfl, fun o hi => ?_⟩
          rcases mem_cons.mp hi with rfl | hi
          · exact hs
          · exact ha o hi
      · rintro ((rfl | hm) | ⟨rfl, ha⟩)
        · exact Or.inl rfl
        · exact Or.inr (Or.inl hm)
        · exact Or.inr (Or.inr ⟨rfl, fun o hi => ha o (mem_cons_of_mem _ hi)⟩)

theorem increasing_insertAbsent (k : K) (v : V)
    (hso : Increasing es) : Increasing (insertAbsent k v es) := by
  induction es with
  | nil => simp [insertAbsent, Increasing]
  | cons hd tl ih =>
    have ha : ∀ o ∈ tl, hd.1 < o.1 := fun o => rel_of_pairwise_cons hso
    unfold insertAbsent
    split_ifs with hsm hs
    · refine cons (fun o hi => ?_) hso
      rcases mem_cons.mp hi with rfl | hi
      · exact hsm
      · exact hsm.trans (ha o hi)
    · exact hso
    · refine cons (fun o hi => ?_) (ih hso.of_cons)
      rcases (mem_insertAbsent hso.of_cons).mp hi with old | ⟨rfl, _⟩
      · exact ha o old
      · exact lt_of_le_of_ne (not_lt.mp hsm) hs

theorem insertAbsent_of_mem {k : K} (v : V) (hs : Increasing es)
    (hp : ∃ e ∈ es, e.1 = k) : insertAbsent k v es = es := by
  induction es with
  | nil => simp at hp
  | cons hd tl ih =>
    obtain ⟨f, hi, rfl⟩ := hp
    rcases mem_cons.mp hi with rfl | hi
    · rw [insertAbsent, if_neg (lt_irrefl _), if_pos rfl]
    · have hb : hd.1 < f.1 := rel_of_pairwise_cons hs hi
      rw [insertAbsent, if_neg (not_lt.mpr hb.le), if_neg hb.ne, ih hs.of_cons ⟨f, hi, rfl⟩]

theorem floorFrom_of_lt (d : V) {p : K} (ha : ∀ e ∈ es, p < e.1) : floorFrom d es p = d := by
  cases es with
  | nil => rfl
  | cons hd tl => exact if_neg (not_le.mpr (ha hd mem_cons_self))

theorem floorFrom_of_greatest (d : V) {k p : K} {v : V}
    (hs : Increasing es) (hm : (k, v) ∈ es) (low : k ≤ p)
    (hn : ∀ e ∈ es, k < e.1 → p < e.1) : floorFrom d es p = v := by
  induction es generalizing d with
  | nil => cases hm
  | cons hd tl ih =>
    have ha : ∀ o ∈ tl, hd.1 < o.1 := fun o => rel_of_pairwise_cons hs
    rcases mem_cons.mp hm with rfl | hi
    · rw [floorFrom, if_pos low, floorFrom_of_lt]
      exact fun e hi => hn e (mem_cons_of_mem _ hi) (ha e hi)
    · rw [floorFrom, if_pos ((ha _ hi).le.trans low)]
      exact ih _ hs.of_cons hi fun e hl => hn e (mem_cons_of_mem _ hl)

theorem floorFrom_cases (d : V) (hso : Increasing es) (p : K) :
    (∀ e ∈ es, p < e.1) ∧ floorFrom d es p = d ∨
      ∃ f ∈ es, f.1 ≤ p ∧ (∀ e ∈ es, f.1 < e.1 → p < e.1) ∧ floorFrom d es p = f.2 := by
  induction es generalizing d with
  | nil => exact .inl ⟨fun _ hi => absurd hi not_mem_nil, rfl⟩
  | cons hd tl ih =>
    have ha : ∀ o ∈ tl, hd.1 < o.1 := fun o => rel_of_pairwise_cons hso
    by_cases low : hd.1 ≤ p
    · rw [floorFrom, if_pos low]
      rcases ih hd.2 hso.of_cons with ⟨hl, hs⟩ | ⟨f, hi, hb, hn, hs⟩
      · refine .inr ⟨hd, mem_cons_self, low, forall_mem_cons.mpr ⟨fun hle => ?_, ?_⟩, hs⟩
        · exact absurd hle (lt_irrefl _)
        · exact fun e hi _ => hl e hi
      · refine .inr ⟨f, mem_cons_of_mem _ hi, hb, forall_mem_cons.mpr ⟨?_, hn⟩, hs⟩
        exact fun hle => absurd hle (ha f hi).not_gt
    · refine .inl ⟨forall_mem_cons.mpr ⟨not_le.mp low, fun e hi => ?_⟩, if_neg low⟩
      exact (not_le.mp low).trans (ha e hi)

/-- The entry at one key is now this one, and the others are as before. -/
structure Sets (old new : List (K × V)) (key : K) (value : V) : Prop where
  there : (key, value) ∈ new
  others : ∀ entry, entry.1 ≠ key → (entry ∈ new ↔ entry ∈ old)

/-- **What a start does**: its value reaches from the key to the next start. -/
theorem Sets.floorFrom {o new : List (K × V)} {k : K} {v : V} (hse : Sets o new k v)
    (hso : Increasing o) (hns : Increasing new) (d : V) (p : K) :
    floorFrom d new p = if k ≤ p ∧ ∀ e ∈ o, k < e.1 → p < e.1 then v
      else Library.floorFrom d o p := by
  split_ifs with hr
  · exact floorFrom_of_greatest d hns hse.there hr.1 fun e hi hl =>
      hr.2 e ((hse.others e hl.ne').mp hi) hl
  · rcases floorFrom_cases d hso p with ⟨ha, hs⟩ | ⟨f, hi, hb, hn, hs⟩
    · rw [hs]
      refine floorFrom_of_lt _ fun e hi => ?_
      by_cases own : e.1 = k
      · rw [own]
        by_contra low
        exact hr ⟨not_lt.mp low, fun e hi _ => ha e hi⟩
      · exact ha e ((hse.others e own).mp hi)
    · -- The greatest old start is still the greatest: the key is not between it and the point.
      have haw : f.1 ≠ k := fun own => hr ⟨own ▸ hb, own ▸ hn⟩
      have hp (hl : f.1 < k) : p < k := by
        by_contra low
        exact hr ⟨not_lt.mp low, fun e hi hle => hn e hi (hl.trans hle)⟩
      rw [hs]
      refine floorFrom_of_greatest d hns ((hse.others f haw).mpr hi) hb ?_
      intro e hi hl
      by_cases own : e.1 = k
      · rw [own] at hl ⊢
        exact hp hl
      · exact hn e ((hse.others e own).mp hi) hl

theorem floorFrom_congr (d : V) {f s : K} (hb : ∀ e ∈ es, e.1 ≤ f ↔ e.1 ≤ s) :
    floorFrom d es f = floorFrom d es s := by
  induction es generalizing d with
  | nil => rfl
  | cons hd tl ih =>
    have hs := hb hd mem_cons_self
    by_cases hp : hd.1 ≤ f
    · rw [floorFrom, floorFrom, if_pos hp, if_pos (hs.mp hp)]
      exact ih _ fun e hi => hb e (mem_cons_of_mem _ hi)
    · rw [floorFrom, floorFrom, if_neg hp, if_neg fun hl => hp (hs.mpr hl)]

theorem floorFrom_mapValues {W : Type} (c : V → W) (d : V) (es : List (K × V)) (p : K) :
    floorFrom (c d) (es.map fun e => (e.1, c e.2)) p = c (floorFrom d es p) := by
  induction es generalizing d with
  | nil => rfl
  | cons hd tl ih =>
    simp only [map_cons, floorFrom]
    split_ifs
    · exact ih hd.2
    · rfl

section

variable [DecidableEq V] {current c : K × V}

/-- **Erasing repeated values changes nothing** of the step function. -/
theorem floorFrom_mergeFrom (d : V) (p : K) (hso : Increasing (c :: es)) :
    floorFrom d (mergeFrom c es) p = floorFrom d (c :: es) p := by
  induction es generalizing d c with
  | nil => rfl
  | cons n tl ih =>
    have ha : ∀ o ∈ n :: tl, c.1 < o.1 := fun o => rel_of_pairwise_cons hso
    have hf : ∀ o ∈ tl, n.1 < o.1 := fun o => rel_of_pairwise_cons hso.of_cons
    unfold mergeFrom
    split_ifs with hs
    · have hsk := cons (fun o hi => ha o (mem_cons_of_mem _ hi)) hso.of_cons.of_cons
      rw [ih d hsk, floorFrom, floorFrom, floorFrom, ← hs]
      by_cases hl : n.1 ≤ p
      · rw [if_pos hl]
      · rw [if_neg hl, floorFrom_of_lt _ fun e hi =>
          (not_le.mp hl).trans (hf e hi)]
    · rw [floorFrom, ih c.2 hso.of_cons]
      rfl

omit [LinearOrder K] in
theorem mem_of_mem_mergeFrom {entry : K × V}
    (member : entry ∈ mergeFrom current entries) : entry ∈ current :: entries := by
  induction entries generalizing current with
  | nil => exact member
  | cons next rest ih =>
    unfold mergeFrom at member
    split_ifs at member with same
    · rcases mem_cons.mp (ih member) with rfl | inside
      · exact mem_cons_self
      · exact mem_cons_of_mem _ (mem_cons_of_mem _ inside)
    · rcases mem_cons.mp member with rfl | inside
      · exact mem_cons_self
      · exact mem_cons_of_mem _ (ih inside)

theorem increasing_mergeFrom (hso : Increasing (c :: es)) : Increasing (mergeFrom c es) := by
  induction es generalizing c with
  | nil => exact hso
  | cons n tl ih =>
    have ha : ∀ o ∈ n :: tl, c.1 < o.1 := fun o => rel_of_pairwise_cons hso
    unfold mergeFrom
    split_ifs with hs
    · exact ih (cons (fun o hi => ha o (mem_cons_of_mem _ hi)) hso.of_cons.of_cons)
    · exact cons (fun o hi => ha o (mem_of_mem_mergeFrom hi)) (ih hso.of_cons)

omit [LinearOrder K] in
theorem head_mem_mergeFrom (current : K × V) (entries : List (K × V)) :
    current ∈ mergeFrom current entries := by
  induction entries generalizing current with
  | nil => exact mem_cons_self
  | cons next rest ih =>
    unfold mergeFrom
    split_ifs
    · exact ih current
    · exact mem_cons_self

end

theorem floorFrom_eq_getLast (d : V) {p : K} (hs : Increasing es) (ha : ∀ e ∈ es, e.1 ≠ p) :
    floorFrom d es p = ((es.takeWhile fun e => e.1 < p).getLast?.map Prod.snd).getD d := by
  induction es generalizing d with
  | nil => rfl
  | cons hd tl ih =>
    have haw : hd.1 ≠ p := ha hd mem_cons_self
    by_cases hp : hd.1 < p
    · rw [floorFrom, if_pos hp.le, takeWhile_cons_of_pos (by simpa using hp),
        List.getLast?_cons, ih hd.2 hs.of_cons fun e hi =>
          ha e (mem_cons_of_mem _ hi)]
      cases (tl.takeWhile fun e => decide (e.1 < p)).getLast? <;> rfl
    · rw [floorFrom, if_neg fun hl => hp (lt_of_le_of_ne hl haw),
        takeWhile_cons_of_neg (by simpa using hp)]
      rfl

end

/-! ### The map -/

/-- A `std::map`: its entries, in key order. -/
structure OrderedMap (K V : Type) [LinearOrder K] where
  entries : List (K × V)
  sorted : Increasing entries

namespace OrderedMap

variable {K V : Type} [LinearOrder K]

/-- The map with one entry. -/
def singleton (key : K) (value : V) : OrderedMap K V :=
  ⟨[(key, value)], List.pairwise_singleton _ _⟩

def lowerBound (map : OrderedMap K V) (key : K) : List (K × V) :=
  map.entries.dropWhile fun entry => entry.1 < key

def before (map : OrderedMap K V) (key : K) : List (K × V) :=
  map.entries.takeWhile fun entry => entry.1 < key

def upperBound (map : OrderedMap K V) (key : K) : List (K × V) :=
  map.entries.dropWhile fun entry => entry.1 ≤ key

/-- The entries in front of `upper_bound(key)`. -/
def upTo (map : OrderedMap K V) (key : K) : List (K × V) :=
  map.entries.takeWhile fun entry => entry.1 ≤ key

/-- `find(key)`: the value at a key, if the key is there. -/
def find (map : OrderedMap K V) (key : K) : Option V :=
  (map.entries.find? fun entry => entry.1 = key).map Prod.snd

/-- The map without entries. -/
def empty : OrderedMap K V := ⟨[], List.Pairwise.nil⟩

/-- `*rbegin()`. -/
def back (map : OrderedMap K V) : Option (K × V) :=
  map.entries.getLast?

def emplace (map : OrderedMap K V) (key : K) (value : V) : OrderedMap K V :=
  ⟨insertAbsent key value map.entries, increasing_insertAbsent key value map.sorted⟩

def assign (map : OrderedMap K V) (key : K) (value : V) : OrderedMap K V :=
  ⟨map.entries.map fun entry => if entry.1 = key then (entry.1, value) else entry, by
    refine List.pairwise_map.mpr (map.sorted.imp fun {first second} less => ?_)
    split_ifs <;> exact less⟩

/-- `erase(key)`. -/
def erase (map : OrderedMap K V) (key : K) : OrderedMap K V :=
  ⟨map.entries.filter fun entry => entry.1 ≠ key, map.sorted.filter _⟩

def mapValues (map : OrderedMap K V) (change : V → V) : OrderedMap K V :=
  ⟨map.entries.map fun entry => (entry.1, change entry.2), by
    exact List.pairwise_map.mpr (map.sorted.imp fun less => less)⟩

def mergeRuns [DecidableEq V] (map : OrderedMap K V) : OrderedMap K V :=
  match map with
  | ⟨[], sorted⟩ => ⟨[], sorted⟩
  | ⟨head :: rest, sorted⟩ => ⟨mergeFrom head rest, increasing_mergeFrom sorted⟩

/-- The step function of a map of interval starts. -/
def floor (default : V) (map : OrderedMap K V) (point : K) : V :=
  floorFrom default map.entries point

variable {map : OrderedMap K V} {other ot : K} {x : V}

theorem lowerBound_eq_nil {k : K} (hn : map.lowerBound k = []) : ∀ e ∈ map.entries, e.1 < k := by
  intro e hi
  simpa using dropWhile_eq_nil_iff.mp hn e hi

theorem lowerBound_eq_cons {k : K} {f : K × V} {tl : List (K × V)}
    (hso : map.lowerBound k = f :: tl) :
    f ∈ map.entries ∧ k ≤ f.1 ∧ ∀ e ∈ map.entries, k ≤ e.1 → f.1 ≤ e.1 := by
  have hm : f ∈ map.entries :=
    (dropWhile_sublist _).mem (hso ▸ mem_cons_self : f ∈ map.lowerBound k)
  have hs : k ≤ f.1 := by
    have hh := List.head?_dropWhile_not (fun e : K × V => decide (e.1 < k)) map.entries
    rw [show map.entries.dropWhile (fun e => decide (e.1 < k)) = f :: tl from hso] at hh
    simpa using hh
  refine ⟨hm, hs, fun e hi hl => ?_⟩
  rw [← takeWhile_append_dropWhile (p := fun e : K × V => decide (e.1 < k)) (l := map.entries),
    mem_append] at hi
  rcases hi with he | hi
  · exact absurd hl (not_le.mpr (by simpa using mem_takeWhile_imp he))
  · rw [show map.entries.dropWhile (fun e => decide (e.1 < k)) = f :: tl from hso] at hi
    have ho : Increasing (f :: tl) := hso ▸ map.sorted.sublist (dropWhile_sublist _)
    rcases mem_cons.mp hi with rfl | hi
    · exact le_rfl
    · exact (rel_of_pairwise_cons ho hi).le

theorem before_eq_entries {k : K} (hn : map.lowerBound k = []) : map.before k = map.entries :=
  takeWhile_eq_self_iff.mpr fun e hi => by
    simpa using lowerBound_eq_nil hn e hi

theorem before_ne_nil {k : K} (hs : ∃ e ∈ map.entries, e.1 < k) : map.before k ≠ [] := by
  obtain ⟨e, hi, he⟩ := hs
  obtain ⟨es, hso⟩ := map
  cases es with
  | nil => cases hi
  | cons hd tl =>
    have hl : hd.1 ≤ e.1 := by
      rcases mem_cons.mp hi with rfl | hi
      · exact le_rfl
      · exact (rel_of_pairwise_cons hso hi).le
    rw [before, takeWhile_cons_of_pos (by simpa using hl.trans_lt he)]
    exact cons_ne_nil _ _

variable (d : V)

theorem floor_of_mem {k : K} {v : V} (hm : (k, v) ∈ map.entries) : map.floor d k = v :=
  floorFrom_of_greatest d map.sorted hm le_rfl fun _ _ hl => hl

theorem floor_eq_before {k : K} (ha : ∀ e ∈ map.entries, e.1 ≠ k) {ps : K × V}
    (hl : (map.before k).getLast? = some ps) : map.floor d k = ps.2 := by
  rw [floor, floorFrom_eq_getLast d map.sorted ha]
  rw [before] at hl
  rw [hl]
  rfl

theorem floor_congr {f s : K} (hb : ∀ e ∈ map.entries, e.1 ≤ f ↔ e.1 ≤ s) :
    map.floor d f = map.floor d s :=
  floorFrom_congr d hb

theorem floor_from_back (hn : map.entries ≠ []) : ∃ l, map.back = some l ∧ l ∈ map.entries ∧
      ∀ p, l.1 ≤ p → map.floor d p = l.2 := by
  have hen := List.getLast?_eq_some_getLast hn
  have hm := getLast_mem hn
  refine ⟨_, hen, hm, fun p hla => ?_⟩
  have hg : ∀ e ∈ map.entries, e.1 ≤ (map.entries.getLast hn).1 := by
    intro e hi
    have hs := map.sorted
    rw [Increasing, ← dropLast_append_getLast hn, pairwise_append] at hs
    rw [← dropLast_append_getLast hn, mem_append, mem_singleton] at hi
    rcases hi with he | rfl
    · exact (hs.2.2 e he _ mem_cons_self).le
    · exact le_rfl
  exact floorFrom_of_greatest d map.sorted hm hla fun e hi hl =>
    absurd hl (hg e hi).not_gt

theorem mem_emplace {k : K} {v : V} {e : K × V} : e ∈ (map.emplace k v).entries ↔
      e ∈ map.entries ∨ (e = (k, v) ∧ ∀ other ∈ map.entries, other.1 ≠ k) :=
  mem_insertAbsent map.sorted

theorem sets_emplace {k : K} (ha : ∀ e ∈ map.entries, e.1 ≠ k) (v : V) :
    Sets map.entries (map.emplace k v).entries k v where
  there := mem_emplace.mpr (.inr ⟨rfl, ha⟩)
  others _ haw := mem_emplace.trans (or_iff_left fun new => haw (congrArg Prod.fst new.1))

/-- **What a new start does.** -/
theorem floor_emplace (d : V) (map : OrderedMap K V) (k : K) (v : V) (p : K)
    (ha : ∀ e ∈ map.entries, e.1 ≠ k) :
    (map.emplace k v).floor d p = if k ≤ p ∧ ∀ e ∈ map.entries, k < e.1 → p < e.1 then v
      else map.floor d p :=
  (sets_emplace ha v).floorFrom map.sorted (map.emplace k v).sorted d p

/-- **Splitting an interval changes nothing**: a start with the value the point had already. -/
theorem floor_emplace_self (d : V) (map : OrderedMap K V) (k : K) (p : K) :
    (map.emplace k (map.floor d k)).floor d p = map.floor d p := by
  by_cases ha : ∀ e ∈ map.entries, e.1 ≠ k
  · rw [floor_emplace d map k _ p ha]
    split_ifs with hr
    · refine floor_congr d fun e hi => ?_
      constructor
      · exact fun he => he.trans hr.1
      · intro he
        by_contra hl
        exact absurd he (not_le.mpr (hr.2 e hi (not_le.mp hl)))
    · rfl
  · simp only [not_forall, not_not] at ha
    obtain ⟨f, hi, hs⟩ := ha
    have hk : (map.emplace k (map.floor d k)).entries = map.entries :=
      insertAbsent_of_mem _ map.sorted ⟨f, hi, hs⟩
    rw [floor, hk, floor]

theorem mem_assign {k : K} {v : V} {e : K × V} : e ∈ (map.assign k v).entries ↔
      ∃ o ∈ map.entries, e = if o.1 = k then (o.1, v) else o := by
  simp only [assign, List.mem_map, eq_comm]

theorem sets_assign {k : K} (hp : ∃ e ∈ map.entries, e.1 = k) (v : V) :
    Sets map.entries (map.assign k v).entries k v where
  there := by
    obtain ⟨e, hi, own⟩ := hp
    exact mem_assign.mpr ⟨e, hi, by rw [if_pos own, own]⟩
  others e ha := by
    rw [mem_assign]
    constructor
    · intro had
      obtain ⟨o, hi, hs⟩ := had
      split_ifs at hs with own
      · rw [hs] at ha
        exact absurd own ha
      · exact hs ▸ hi
    · intro hi
      exact ⟨e, hi, (if_neg ha).symm⟩

theorem floor_assign (d : V) (map : OrderedMap K V) (k : K) (v : V) (p : K)
    (hp : ∃ e ∈ map.entries, e.1 = k) :
    (map.assign k v).floor d p = if k ≤ p ∧ ∀ e ∈ map.entries, k < e.1 → p < e.1 then v
      else map.floor d p :=
  (sets_assign hp v).floorFrom map.sorted (map.assign k v).sorted d p

theorem floor_mapValues (d : V) (map : OrderedMap K V) (c : V → V) (p : K)
    (hs : ∃ e ∈ map.entries, e.1 ≤ p) :
    (map.mapValues c).floor d p = c (map.floor d p) := by
  obtain ⟨e, hi, he⟩ := hs
  obtain ⟨es, hso⟩ := map
  cases es with
  | nil => cases hi
  | cons hd tl =>
    have hf : hd.1 ≤ p := by
      rcases mem_cons.mp hi with rfl | hi
      · exact he
      · exact (rel_of_pairwise_cons hso hi).le.trans he
    simp only [floor, mapValues, map_cons, floorFrom, if_pos hf]
    exact floorFrom_mapValues c hd.2 tl p

theorem mem_of_find {k : K} {v : V} (hf : map.find k = some v) : (k, v) ∈ map.entries := by
  obtain ⟨e, hfi, rfl⟩ := map_eq_some_iff.mp hf
  have own : e.1 = k := by simpa using List.find?_some hfi
  exact own ▸ List.mem_of_find?_eq_some hfi

theorem find_eq_none {k : K} : map.find k = none ↔ ∀ e ∈ map.entries, e.1 ≠ k := by
  rw [find, map_eq_none_iff, List.find?_eq_none]
  simp only [decide_eq_true_eq, ne_eq]

theorem find_eq_some {k : K} {v : V} : map.find k = some v ↔ (k, v) ∈ map.entries := by
  refine ⟨mem_of_find, fun hi => ?_⟩
  have hd := pairwise_map.mpr (map.sorted.imp fun hl => hl.ne)
  cases hf : map.find k with
  | none => exact absurd rfl (find_eq_none.mp hf (k, v) hi)
  | some other =>
    have hs := inj_on_of_nodup_map hd (mem_of_find hf) hi rfl
    rw [(Prod.mk.inj hs).2]

theorem entries_eq_nil : map.entries = [] ↔ ∀ k, map.find k = none := by
  constructor
  · intro none k
    rw [find, none]
    rfl
  · intro ha
    refine eq_nil_iff_forall_not_mem.mpr fun e hi => ?_
    exact find_eq_none.mp (ha e.1) e hi rfl

theorem ne_of_find {k : K} {v : V} (hf : map.find k = some v)
    (ha : map.find ot = none) : k ≠ ot := by
  rintro rfl
  rw [ha] at hf
  cases hf

theorem find_of_sets {o new : OrderedMap K V} {k : K} {v : V}
    (hs : Sets o.entries new.entries k v) (ot : K) :
    new.find ot = if ot = k then some v else o.find ot := by
  split_ifs with own
  · rw [own]
    exact find_eq_some.mpr hs.there
  · refine Option.ext fun f => ?_
    rw [find_eq_some, find_eq_some, hs.others _ own]

theorem find_emplace {k : K} (ha : map.find k = none) (v : V) (ot : K) :
    (map.emplace k v).find ot = if ot = k then some v else map.find ot :=
  find_of_sets (sets_emplace (find_eq_none.mp ha) v) ot

theorem find_assign {k : K} {o : V} (hp : map.find k = some o) (v : V)
    (ot : K) : (map.assign k v).find ot = if ot = k then some v else map.find ot :=
  find_of_sets (sets_assign ⟨_, mem_of_find hp, rfl⟩ v) ot

theorem find_emplace_iff {k : K} {v : V} (ha : map.find k = none) :
    (map.emplace k v).find ot = some x ↔ ot = k ∧ x = v ∨ map.find ot = some x := by
  rw [find_emplace ha]
  split_ifs with own
  · rw [own, ha, some_inj]
    exact ⟨fun hs => .inl ⟨rfl, hs.symm⟩, fun he => (he.resolve_right nofun).2.symm⟩
  · exact ⟨.inr, fun he => he.resolve_left fun new => own new.1⟩

theorem find_emplace_of_find {k : K} {v : V} (ha : map.find k = none)
    (hf : map.find ot = some x) : (map.emplace k v).find ot = some x :=
  (find_emplace_iff ha).mpr (.inr hf)

theorem find_emplace_self {k : K} {v : V} (ha : map.find k = none) :
    (map.emplace k v).find k = some v :=
  (find_emplace_iff ha).mpr (.inl ⟨rfl, rfl⟩)

theorem find_assign_iff {k : K} {o v : V}
    (hp : map.find k = some o) : (map.assign k v).find ot = some x ↔
      ot = k ∧ x = v ∨ ot ≠ k ∧ map.find ot = some x := by
  rw [find_assign hp]
  split_ifs with own
  · rw [some_inj]
    exact ⟨fun hs => .inl ⟨own, hs.symm⟩, fun he => (he.resolve_right fun new => new.1 own).2.symm⟩
  · exact ⟨fun hf => .inr ⟨own, hf⟩, fun he => (he.resolve_left fun new => own new.1).2⟩

theorem exists_find_assign {k : K} {o v : V} (hp : map.find k = some o) :
    (∃ x, (map.assign k v).find ot = some x) ↔ ∃ x, map.find ot = some x := by
  rw [find_assign hp]
  split_ifs with own
  · exact ⟨fun _ => ⟨o, own ▸ hp⟩, fun _ => ⟨v, rfl⟩⟩
  · rfl

theorem find_erase (map : OrderedMap K V) (k ot : K) :
    (map.erase k).find ot = if ot = k then none else map.find ot := by
  refine Option.ext fun f => ?_
  rw [find_eq_some, erase, mem_filter, decide_eq_true_eq]
  split_ifs with own
  · exact ⟨fun hb => absurd own hb.2, fun hi => hi.elim⟩
  · rw [find_eq_some]
    exact and_iff_left own

theorem find_erase_iff {k : K} :
    (map.erase k).find ot = some x ↔ ot ≠ k ∧ map.find ot = some x := by
  rw [find_erase]
  split_ifs with own
  · exact ⟨nofun, fun hb => absurd own hb.1⟩
  · exact (and_iff_right own).symm

theorem getLast?_upTo {k p : K} {v : V} (hf : map.find k = some v)
    (low : k ≤ p) (hg : ∀ other v, map.find other = some v → k < other → p < other) :
    (map.upTo p).getLast? = some (k, v) := by
  obtain ⟨b, a, hsp⟩ := append_of_mem (mem_of_find hf)
  have hs := map.sorted
  unfold Increasing at hs
  rw [hsp, pairwise_append] at hs
  obtain ⟨-, hl, he⟩ := hs
  have hp : ∀ e ∈ b, decide (e.1 ≤ p) = true := fun e hi =>
    decide_eq_true ((he e hi (k, v) mem_cons_self).le.trans low)
  have hst : a.takeWhile (fun e => e.1 ≤ p) = [] := by
    cases a with
    | nil => rfl
    | cons n tl =>
      have ha : k < n.1 := rel_of_pairwise_cons hl mem_cons_self
      have hb : p < n.1 := by
        refine hg n.1 n.2 (find_eq_some.mpr ?_) ha
        rw [hsp]
        exact mem_append_right _ (mem_cons_of_mem _ mem_cons_self)
      exact takeWhile_cons_of_neg (by simpa using hb)
  rw [upTo, hsp, takeWhile_append_of_pos hp, takeWhile_cons_of_pos (by simpa using low), hst,
    List.getLast?_concat]

section

variable [DecidableEq V]

/-- **Erasing repeated values changes nothing.** -/
theorem floor_mergeRuns (d : V) (map : OrderedMap K V) (p : K) :
    map.mergeRuns.floor d p = map.floor d p := by
  obtain ⟨es, hs⟩ := map
  cases es with
  | nil => rfl
  | cons hd tl => exact floorFrom_mergeFrom d p hs

theorem mem_of_mem_mergeRuns {e : K × V} (hm : e ∈ map.mergeRuns.entries) : e ∈ map.entries := by
  obtain ⟨es, hs⟩ := map
  cases es with
  | nil => exact hm
  | cons hd tl => exact mem_of_mem_mergeFrom hm

theorem least_mem_mergeRuns {e : K × V} (hm : e ∈ map.entries)
    (hl : ∀ other ∈ map.entries, e.1 ≤ other.1) : e ∈ map.mergeRuns.entries := by
  obtain ⟨es, hs⟩ := map
  cases es with
  | nil => exact hm
  | cons hd tl =>
    rcases mem_cons.mp hm with rfl | hi
    · exact head_mem_mergeFrom _ _
    · exact absurd (hl hd mem_cons_self) (not_le.mpr (rel_of_pairwise_cons hs hi))

end

/-! ### Least maps -/

section

variable {d : V}

/-- No two neighbouring entries carry the same value. -/
def Alternating (entries : List (K × V)) : Prop :=
  entries.IsChain fun first second => first.2 ≠ second.2

omit [LinearOrder K] in
theorem head?_mergeFrom [DecidableEq V] (current : K × V) (entries : List (K × V)) :
    (mergeFrom current entries).head? = some current := by
  induction entries generalizing current with
  | nil => rfl
  | cons next rest ih =>
    unfold mergeFrom
    split_ifs
    · exact ih current
    · rfl

omit [LinearOrder K] in
theorem alternating_mergeFrom [DecidableEq V] (current : K × V) (entries : List (K × V)) :
    Alternating (mergeFrom current entries) := by
  induction entries generalizing current with
  | nil => exact List.IsChain.singleton current
  | cons next rest ih =>
    unfold mergeFrom
    split_ifs with same
    · exact ih current
    · refine isChain_cons.mpr ⟨fun other first => ?_, ih next⟩
      rw [head?_mergeFrom] at first
      cases first
      exact same

theorem alternating_mergeRuns [DecidableEq V] (map : OrderedMap K V) :
    Alternating map.mergeRuns.entries := by
  obtain ⟨es, hs⟩ := map
  cases es with
  | nil => exact List.IsChain.nil
  | cons hd tl => exact alternating_mergeFrom hd tl

theorem floorFrom_pred_ne {f e : Nat × V} {es : List (Nat × V)}
    (hs : Increasing (f :: es)) (ha : Alternating (f :: es))
    (hi : e ∈ es) (d : V) :
    floorFrom d (f :: es) (e.1 - 1) ≠ e.2 := by
  induction es generalizing f d with
  | nil => cases hi
  | cons n tl ih =>
    have hb : f.1 < n.1 := rel_of_pairwise_cons hs mem_cons_self
    rcases mem_cons.mp hi with rfl | hl
    · rw [floorFrom, if_pos (by omega), floorFrom, if_neg (by omega)]
      exact (isChain_cons_cons.mp ha).1
    · have hf : n.1 < e.1 := rel_of_pairwise_cons hs.of_cons hl
      rw [floorFrom, if_pos (by omega)]
      exact ih hs.of_cons (isChain_cons_cons.mp ha).2 hl f.2

variable {k : Nat}

/-- **Every map of the same step function has the starts of an alternating one**, if both start at
zero. -/
theorem Alternating.subset {l ot : OrderedMap Nat V}
    (hal : Alternating l.entries) (fit : ∀ e ∈ l.entries, e.1 < k)
    (hz : ∃ e ∈ l.entries, e.1 = 0) (hbe : ∃ e ∈ ot.entries, e.1 = 0)
    (hs : ∀ p < k, ot.floor d p = l.floor d p) :
    l.entries ⊆ ot.entries := by
  intro e hi
  have hv := hs e.1 (fit e hi)
  rw [floor_of_mem d hi] at hv
  -- it is enough that the other map has a start there
  suffices hst : ∃ f ∈ ot.entries, f.1 = e.1 by
    obtain ⟨f, hm, he⟩ := hst
    rw [← he, floor_of_mem d hm] at hv
    rwa [← Prod.ext he hv]
  obtain ⟨es, hso⟩ := l
  obtain ⟨hd, hm, hf⟩ := hz
  cases es with
  | nil => cases hi
  | cons ld tl =>
    rcases mem_cons.mp hi with rfl | hl
    · obtain ⟨f, ht, hst⟩ := hbe
      refine ⟨f, ht, ?_⟩
      rcases mem_cons.mp hm with rfl | hb
      · omega
      · have : e.1 < hd.1 := rel_of_pairwise_cons hso hb
        omega
    · have hc := floorFrom_pred_ne hso hal hl d
      rw [← floor_of_mem d hi] at hc
      by_contra ha
      apply hc
      have hsm := fit e hi
      show floor d ⟨ld :: tl, hso⟩ (e.1 - 1) = _
      rw [← hs _ (by omega), ← hs _ hsm]
      refine floor_congr d fun hst ht => ?_
      have : hst.1 ≠ e.1 := fun he => ha ⟨hst, ht, he⟩
      omega

/-- **An alternating map is the least one of its step function**, and the only least one. -/
theorem Alternating.eq_of_length_le {l ot : OrderedMap Nat V}
    (ha : Alternating l.entries) (fit : ∀ e ∈ l.entries, e.1 < k)
    (hz : ∃ e ∈ l.entries, e.1 = 0) (hb : ∃ e ∈ ot.entries, e.1 = 0)
    (hs : ∀ p < k, ot.floor d p = l.floor d p)
    (hsh : ot.entries.length ≤ l.entries.length) : ot = l := by
  have hd : l.entries.Nodup := l.sorted.imp fun hl he => (he ▸ hl).false
  have hi := ha.subset fit hz hb hs
  have hp := (hd.subperm hi).perm_of_length_le hsh
  obtain ⟨es, hso⟩ := ot
  obtain ⟨ls, hls⟩ := l
  obtain rfl : es = ls := by
    refine (hp.eq_of_pairwise ?_ hls hso).symm
    intro f s _ _ hl hm
    exact absurd (hl.trans hm) (lt_irrefl _)
  rfl

end

end OrderedMap

end Proteus.Library
