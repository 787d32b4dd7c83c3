/-
**The order of the paths in the adaptive radix tree** (`ART::convertKey`, `ART::insert`).

A traversal that takes the children of each node by their bytes meets the keys in the lexicographic
order of the bytes that `insert` formats. `convertKey` is there to make this the order of the
numbers on a little-endian machine, but it leaves every key that is not a string as it is.

* `Layout.children` — the children of a node in the order of their bytes, for all four layouts.
* `inOrder_sorted`, `mem_inOrder` — a traversal meets every key once, in the order of the formatted
  bytes.
* `paths_ordered_iff` — the paths are in the order of the numbers exactly if, of any two inserted
  numbers, the least and the most significant byte in which they differ order them the same way.
-/

import Proteus.Library.Digits
import Proteus.Oltp.Index.ArtKeyReads

namespace Proteus.Oltp.Index

open Library List Option

variable {width : Nat} {V : Type}

/-! ### The bytes of a number -/

def swapped (count : Nat) (units : List KeyUnit) : List KeyUnit :=
  (units.take count).reverse ++ List.replicate (units.length - min count units.length) 0

def convertKey (isString : Bool) (units : List KeyUnit) : List KeyUnit :=
  if ¬ isString then units
  else
    match units.length with
    | 16 => swapped 2 units
    | 32 => swapped 4 units
    | 64 => swapped 8 units
    | _ => units.reverse

/-- The key that `insert` makes of an unsigned integer of `width` bytes: its memory on a
little-endian machine, converted. -/
def formatKey (width : Nat) (number : Fin (256 ^ width)) : Key width where
  units := convertKey false (digits 256 width number)
  length := length_digits width number

theorem formatKey_units (n : Fin (256 ^ width)) : (formatKey width n).units = digits 256 width n :=
  rfl

theorem formatKey_injective : Function.Injective (formatKey width) := by
  intro f s hs
  apply Fin.ext
  exact digits_injective f.isLt s.isLt (congrArg Key.units hs)

/-! ### The children of a node in order -/

section

variable {C : Type}

def Layout.children : Layout C → List (KeyUnit × C)
  | .node4 slots => slots.entries
  | .node16 slots => slots.entries
  | .node48 indexes children count => (List.finRange 256).filterMap fun unit =>
      ((Layout.node48 indexes children count).getChild unit).map fun child => (unit, child)
  | .node256 children _ => (List.finRange 256).filterMap fun unit =>
      (children unit).map fun child => (unit, child)

variable {u : KeyUnit} {chi : C} {l : Layout C}

theorem mem_byBytes {child? : KeyUnit → Option C} :
    (u, chi) ∈ (List.finRange 256).filterMap (fun u => (child? u).map fun chi => (u, chi)) ↔
      child? u = some chi := by
  rw [mem_filterMap]
  constructor
  · intro hf
    obtain ⟨o, _, hh⟩ := hf
    obtain ⟨s, hho, hs⟩ := map_eq_some_iff.mp hh
    cases hs
    exact hho
  · intro hho
    exact ⟨u, mem_finRange u, map_eq_some_iff.mpr ⟨chi, hho, rfl⟩⟩

theorem pairwise_byBytes (child? : KeyUnit → Option C) :
    ((List.finRange 256).filterMap fun u => (child? u).map fun chi => (u, chi)).Pairwise
      fun f s => f.1 < s.1 := by
  rw [pairwise_filterMap]
  refine (pairwise_lt_finRange 256).imp fun {f s} hl one hh two ht => ?_
  obtain ⟨_, _, rfl⟩ := map_eq_some_iff.mp hh
  obtain ⟨_, _, rfl⟩ := map_eq_some_iff.mp ht
  exact hl

theorem Layout.mem_children (hwf : l.WellFormed) :
    (u, chi) ∈ l.children ↔ l.getChild u = some chi := by
  cases l with
  | node4 ss => exact Slots.mem_entries.trans (Slots.scan_iff hwf).symm
  | node16 ss => exact Slots.mem_entries.trans (Slots.find_iff hwf).symm
  | node48 ins ch c | node256 ch c => exact mem_byBytes

theorem Layout.children_sorted (hwf : l.WellFormed) : l.children.Pairwise fun f s => f.1 < s.1 := by
  cases l with
  | node4 ss | node16 ss => exact Slots.Sorted.pairwise_entries hwf
  | node48 ins ch c | node256 ch c => exact pairwise_byBytes _

end

/-! ### The traversal -/

def inOrder : Nat → Node width V → List (Key width × V)
  | 0, _ => []
  | _ + 1, .leaf key value => [(key, value)]
  | fuel + 1, .inner _ layout => layout.children.flatMap fun entry => inOrder fuel entry.2

/-- A path has at most `width + 1` nodes. -/
def traverse (root : Option (Node width V)) : List (Key width × V) :=
  match root with
  | none => []
  | some node => inOrder (width + 1) node

section

variable {k : Key width} {v : V} {p : List KeyUnit} {n : Node width V} {fu : Nat}

/-- **The traversal meets what the subtree holds.** -/
theorem mem_inOrder (hst : Stored p n) (he : width < fu + p.length) :
    (k, v) ∈ inOrder fu n ↔ Member n k v := by
  induction hst generalizing fu with
  | @leaf p hst o hsp =>
    have hw := hsp.length_le
    rw [hst.length] at hw
    obtain ⟨fu, rfl⟩ : ∃ l, fu = l + 1 := ⟨fu - 1, by omega⟩
    rw [inOrder, mem_singleton]
    constructor
    · intro hs
      cases hs
      exact .leaf _ _
    · intro hm
      cases hm
      rfl
  | @inner p np la hsh hwf hc hbr ih =>
    obtain ⟨fu, rfl⟩ : ∃ l, fu = l + 1 := ⟨fu - 1, by omega⟩
    have hb {u : KeyUnit} {c : Node width V} (hf : la.getChild u = some c) :
        (k, v) ∈ inOrder fu c ↔ Member c k v :=
      ih u c hf (show width < fu + _ by rw [deeper_length]; omega)
    rw [inOrder, mem_flatMap, member_inner]
    constructor
    · intro hf
      obtain ⟨⟨u, c⟩, ha, hi⟩ := hf
      have hh := (Layout.mem_children hwf).mp ha
      exact ⟨u, c, hh, (hb hh).mp hi⟩
    · intro hf
      obtain ⟨u, c, hh, hm⟩ := hf
      exact ⟨(u, c), (Layout.mem_children hwf).mpr hh, (hb hh).mpr hm⟩

theorem lt_of_spelled {f s : Key width} {l r : KeyUnit} (hl : l < r)
    (hfs : p ++ [l] <+: f.units) (hss : p ++ [r] <+: s.units) :
    f.units < s.units := by
  obtain ⟨fr, hfw⟩ := hfs
  obtain ⟨sr, hsw⟩ := hss
  rw [← hfw, ← hsw, append_assoc, append_assoc]
  apply append_left_lt
  exact cons_lt_cons_iff.mpr (.inl hl)

/-- **The traversal goes in the order of the bytes.** -/
theorem inOrder_sorted (hs : Stored p n) (he : width < fu + p.length) :
    (inOrder fu n).Pairwise fun f s => f.1.units < s.1.units := by
  induction hs generalizing fu with
  | @leaf p hs o hsp =>
    have hw := hsp.length_le
    rw [hs.length] at hw
    obtain ⟨fu, rfl⟩ : ∃ l, fu = l + 1 := ⟨fu - 1, by omega⟩
    exact pairwise_singleton _ _
  | @inner p np la hsh hwf hc hb ih =>
    obtain ⟨fu, rfl⟩ : ∃ l, fu = l + 1 := ⟨fu - 1, by omega⟩
    have hf (u : KeyUnit) : width < fu + (p ++ np ++ [u]).length := by
      rw [deeper_length]
      omega
    rw [inOrder, pairwise_flatMap]
    constructor
    · intro e ha
      obtain ⟨u, c⟩ := e
      exact ih u c ((Layout.mem_children hwf).mp ha) (hf u)
    · refine (Layout.children_sorted hwf).imp_of_mem fun {f s} one two l => ?_
      have hfs := hc _ _ ((Layout.mem_children hwf).mp one)
      have hss := hc _ _ ((Layout.mem_children hwf).mp two)
      intro lf hli r hri
      exact lt_of_spelled l (hfs.spelled ((mem_inOrder hfs (hf _)).mp hli))
        (hss.spelled ((mem_inOrder hss (hf _)).mp hri))

end

variable {root r : Option (Node width V)} {entries es : List (Key width × V)}

open Prod

theorem mem_traverse (hh : Holds r es) {k : Key width} :
    k ∈ (traverse r).map fst ↔ k ∈ es.map fst := by
  cases r with
  | none =>
    obtain rfl : es = [] := hh
    rfl
  | some n =>
    obtain ⟨hs, hm⟩ := hh
    have he : width < width + 1 + ([] : List KeyUnit).length := Nat.lt_succ_self width
    refine mem_map.trans (Iff.trans ?_ firstValue_isSome)
    constructor
    · intro hf
      obtain ⟨⟨o, v⟩, hi, rfl⟩ := hf
      exact ⟨v, (hm _ _).mp ((mem_inOrder hs he).mp hi)⟩
    · intro hf
      obtain ⟨v, hfi⟩ := hf
      exact ⟨(k, v), (mem_inOrder hs he).mpr ((hm _ _).mpr hfi), rfl⟩

theorem traverse_sorted (hh : Holds r es) :
    ((traverse r).map fst).Pairwise fun f s => f.units < s.units := by
  rw [pairwise_map]
  cases r with
  | none => exact List.Pairwise.nil
  | some n => exact inOrder_sorted hh.1 (Nat.lt_succ_self width)

/-! ### The order of the numbers -/

/-- The tree after some numbers were inserted. -/
def insertNumbers (entries : List (Fin (256 ^ width) × V)) : Except Fault (Option (Node width V)) :=
  insertAll (entries.map fun entry => (formatKey width entry.1, entry.2))

/-- The formatted bytes compare as the numbers do. -/
def BytesOrdered (entries : List (Fin (256 ^ width) × V)) : Prop :=
  ∀ first ∈ entries.map Prod.fst, ∀ second ∈ entries.map Prod.fst,
    first < second ↔ (formatKey width first).units < (formatKey width second).units

def TraversalIncreases (entries : List (Fin (256 ^ width) × V)) : Prop :=
  ∃ root, insertNumbers entries = .ok root ∧ ∃ numbers : List (Fin (256 ^ width)),
    (traverse root).map Prod.fst = numbers.map (formatKey width) ∧
    numbers.Pairwise (· < ·) ∧ ∀ number, number ∈ numbers ↔ number ∈ entries.map Prod.fst

/-- **The paths are in key order.** -/
def PathsOrdered (entries : List (Fin (256 ^ width) × V)) : Prop :=
  BytesOrdered entries ∧ TraversalIncreases entries

/-- The least and the most significant byte in which two numbers differ order them the same way. -/
def EndsAgree (first second : Fin (256 ^ width)) : Prop :=
  ∀ low high, LeastDiffering 256 width first second low →
    GreatestDiffering 256 width first second high →
    (digit 256 first low < digit 256 second low ↔ digit 256 first high < digit 256 second high)

theorem endsAgree_iff (f s : Fin (256 ^ width)) : EndsAgree f s ↔
    (f < s ↔ (formatKey width f).units < (formatKey width s).units) := by
  by_cases hs : f = s
  · subst hs
    refine iff_of_true (fun lo hi hl _ => absurd rfl hl.differs) ?_
    rw [iff_false_left (lt_irrefl _)]
    exact lt_irrefl _
  · have ha : f.val ≠ s.val := fun hv => hs (Fin.ext hv)
    obtain ⟨lo, hl⟩ := exists_leastDiffering f.isLt s.isLt ha
    obtain ⟨hi, hg⟩ := exists_greatestDiffering f.isLt s.isLt ha
    rw [formatKey_units, formatKey_units, Fin.lt_def]
    constructor
    · intro hag
      rw [hg.lt_iff f.isLt s.isLt, hl.digits_lt_iff]
      exact (hag lo hi hl hg).symm
    · intro hag lo hi hl hg
      rw [← hg.lt_iff f.isLt s.isLt, ← hl.digits_lt_iff]
      exact hag.symm

theorem BytesOrdered.traversalIncreases {es : List (Fin (256 ^ width) × V)} (hb : BytesOrdered es) :
    TraversalIncreases es := by
  obtain ⟨root, hd, hh⟩ := insertAll_spec (es.map fun e => (formatKey width e.1, e.2))
  have hk : (es.map fun e => (formatKey width e.1, e.2)).map fst =
      (es.map fst).map (formatKey width) := by
    rw [List.map_map, List.map_map]
    rfl
  have met {k : Key width} : k ∈ (traverse root).map fst ↔
      ∃ n ∈ es.map fst, formatKey width n = k := by
    rw [mem_traverse hh, hk, List.mem_map]
  obtain ⟨ns, hli⟩ : ∃ ns, List.map (formatKey width) ns = (traverse root).map fst := by
    have hfo : (traverse root).map fst ∈ Set.range (List.map (formatKey width)) := by
      rw [Set.range_list_map]
      intro k hi
      obtain ⟨n, _, hs⟩ := met.mp hi
      exact ⟨n, hs⟩
    exact hfo
  have hin (n : Fin (256 ^ width)) : n ∈ ns ↔ n ∈ es.map fst := by
    rw [← List.mem_map_of_injective formatKey_injective, hli, met]
    constructor
    · intro hf
      obtain ⟨o, hi, hs⟩ := hf
      rwa [← formatKey_injective hs]
    · intro hi
      exact ⟨n, hi, rfl⟩
  refine ⟨root, hd, ns, hli.symm, ?_, hin⟩
  have hso := traverse_sorted hh
  rw [← hli, pairwise_map] at hso
  exact hso.imp_of_mem fun {f s} one two hl =>
    (hb f ((hin f).mp one) s ((hin s).mp two)).mpr hl

/-- **When the paths are in key order.** -/
theorem paths_ordered_iff (entries : List (Fin (256 ^ width) × V)) : PathsOrdered entries ↔
    ∀ first ∈ entries.map Prod.fst, ∀ second ∈ entries.map Prod.fst, EndsAgree first second := by
  constructor
  · intro ho first one second two
    exact (endsAgree_iff first second).mpr (ho.1 first one second two)
  · intro ha
    have hb : BytesOrdered entries := fun first one second two =>
      (endsAgree_iff first second).mp (ha first one second two)
    exact ⟨hb, hb.traversalIncreases⟩

/-- The numbers 1 and 256 of two bytes: 256 is met first. -/
theorem later_number_met_first : (⟨1, by decide⟩ : Fin (256 ^ 2)) < ⟨256, by decide⟩ ∧
      (formatKey 2 ⟨256, by decide⟩).units < (formatKey 2 ⟨1, by decide⟩).units ∧
      (insertNumbers [((⟨1, by decide⟩ : Fin (256 ^ 2)), 10), (⟨256, by decide⟩, 20)]).map
          (fun root => (traverse root).map Prod.snd) = .ok [20, 10] ∧
      ¬ PathsOrdered [((⟨1, by decide⟩ : Fin (256 ^ 2)), 10), (⟨256, by decide⟩, 20)] := by
  refine ⟨by decide, by decide, by decide, fun ho => ?_⟩
  have hw := ho.1 ⟨1, by decide⟩ (by decide) ⟨256, by decide⟩ (by decide)
  revert hw
  decide

end Proteus.Oltp.Index
