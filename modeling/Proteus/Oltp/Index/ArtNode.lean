/-
**The four node layouts of the adaptive radix tree** (`oltp/index/ART/art_node.{hpp,cpp}`).

An inner node maps the next byte of a key to a child. `ARTNode_4` and `ARTNode_16` keep sorted
arrays of bytes and children, `ARTNode_48` an index of 256 entries into an array of children,
`ARTNode_256` the children themselves; a full node is replaced by the next larger layout.

* `Layout.WellFormed` — what the arrays of each layout keep.
* `insertChild_spec` — a well-formed layout with room, or with a child to replace, takes the child
  and changes no other (`getChild` is the map the layout stands for).
* `grow_spec` — growth keeps every child and makes room.
-/

import Proteus.Library.SortedSlots

namespace Proteus.Oltp.Index

open Library Function

/-- `key_unit_t` -/
abbrev KeyUnit := Fin 256

scoped instance neZeroKeyUnits : NeZero 256 := ⟨by decide⟩

inductive Layout (C : Type) where
  | node4 (slots : Slots 4 KeyUnit C)
  | node16 (slots : Slots 16 KeyUnit C)
  | node48 (indexes : KeyUnit → Nat) (children : Nat → Option C) (count : Nat)
  | node256 (children : KeyUnit → Option C) (count : Nat)

open List

namespace Layout

variable {C : Type}

/-- `ARTNode_4::create` -/
def createNode4 : Layout C :=
  .node4 ⟨fun _ => 0, fun _ => none, 0⟩

/-- `ARTNode_16::create` -/
def createNode16 (node4 : Slots 4 KeyUnit C) : Layout C :=
  .node16
    { keys := fun slot => if slot < node4.count then node4.keys slot else Fin.ofNat 256 slot
      values := fun slot => if slot < node4.count then node4.values slot else none
      count := 4 }

def indexChildren (keys : Nat → KeyUnit) (count : Nat) : KeyUnit → Nat :=
  (List.range count).foldl (fun indexes slot => Function.update indexes (keys slot) slot) fun _ =>
    256

/-- `ARTNode_48::create` -/
def createNode48 (node16 : Slots 16 KeyUnit C) : Layout C :=
  .node48 (indexChildren node16.keys node16.count)
    (fun slot => if slot < node16.count then node16.values slot else none) node16.count

/-- `ARTNode_256::create` -/
def createNode256 (indexes : KeyUnit → Nat) (children : Nat → Option C) (count : Nat) : Layout C :=
  .node256 (fun unit => if indexes unit = 256 then none else children (indexes unit)) count

def getChild (layout : Layout C) (partialKey : KeyUnit) : Option C :=
  match layout with
  | .node4 slots => slots.scan partialKey
  | .node16 slots => slots.find partialKey
  | .node48 indexes children _ =>
    if indexes partialKey = 256 then none else children (indexes partialKey)
  | .node256 children _ => children partialKey

def insertChild (layout : Layout C) (partialKey : KeyUnit) (child : C) : Option (Layout C) :=
  match layout with
  | .node4 slots => (slots.insert partialKey child).map .node4
  | .node16 slots => (slots.insert partialKey child).map .node16
  | .node48 indexes children count =>
    if count < 48 ∧ indexes partialKey = 256 then
      some (.node48 (Function.update indexes partialKey count)
        (Function.update children count (some child)) (count + 1))
    else if indexes partialKey < 48 then
      some (.node48 indexes (Function.update children (indexes partialKey) (some child)) count)
    else none
  | .node256 children count =>
      some (.node256 (Function.update children partialKey (some child)) count)

def isFull : Layout C → Bool
  | .node4 slots => slots.count = 4
  | .node16 slots => slots.count = 16
  | .node48 _ _ count => count = 48
  | .node256 _ _ => false

/-- `none` is the exception of `ARTNode_256::grow`. -/
def grow : Layout C → Option (Layout C)
  | .node4 slots => some (createNode16 slots)
  | .node16 slots => some (createNode48 slots)
  | .node48 indexes children count => some (createNode256 indexes children count)
  | .node256 _ _ => none

/-! ### The invariant -/

/-- The arrays of an `ARTNode_48`. -/
structure Indexed (indexes : KeyUnit → Nat) (children : Nat → Option C) (count : Nat) : Prop where
  bound : count ≤ 48
  range : ∀ unit, indexes unit = 256 ∨ indexes unit < count
  injective : ∀ first second, indexes first ≠ 256 → indexes first = indexes second → first = second
  filled : ∀ slot, slot < count → (children slot).isSome

def WellFormed : Layout C → Prop
  | .node4 slots => slots.Sorted
  | .node16 slots => slots.Sorted
  | .node48 indexes children count => Indexed indexes children count
  | .node256 _ _ => True

theorem createNode4_wellFormed : (createNode4 : Layout C).WellFormed :=
  ⟨by simp, fun _ _ _ hu => absurd hu (Nat.not_lt_zero _), fun _ => by simp⟩

open Slots

theorem createNode4_getChild (pk : KeyUnit) : (createNode4 : Layout C).getChild pk = none := by
  simp only [createNode4, getChild, scan]
  cases (range 4).find? fun _ => decide ((0 : KeyUnit) = pk) <;> rfl

variable {partialKey pk : KeyUnit} {child : C} {c : Nat} {layout l : Layout C}

theorem createNode4_insertChild_isFull {u : Layout C}
    (hd : createNode4.insertChild pk child = some u) : u.isFull = false := by
  have hs : createNode4.insertChild pk child =
      some (.node4 (Slots.shiftIn ⟨fun _ => 0, fun _ => none, 0⟩ 0 pk child)) := by
    simp [createNode4, insertChild, Slots.insert, Slots.position, Slots.positionFrom]
  rw [hs] at hd
  cases hd
  rfl

/-! ### Inserting a child -/

def Updates (layout updated : Layout C) (partialKey : KeyUnit) (child : C) : Prop :=
  ∀ unit, updated.getChild unit = if unit = partialKey then some child else layout.getChild unit

theorem updates_of_holds {ss up : Slots c KeyUnit C} {se : Slots c KeyUnit C → KeyUnit → Option C}
    (hr : ∀ u s, se ss u = some s ↔ ss.Holds u s)
    (hra : ∀ u s, se up u = some s ↔ up.Holds u s)
    (hh : ∀ u s, up.Holds u s ↔ if u = pk then s = child else ss.Holds u s) (u : KeyUnit) :
    se up u = if u = pk then some child else se ss u := by
  refine Option.ext fun s => ?_
  rw [hra, hh]
  split_ifs with hs
  · rw [Option.some.injEq, eq_comm]
  · rw [hr]

theorem slots_insert {ss : Slots c KeyUnit C} {se : Slots c KeyUnit C → KeyUnit → Option C}
    (hre : ∀ u s, se ss u = some s ↔ ss.Holds u s) (hso : ss.Sorted)
    (child : C) (hr : se ss pk = none → ss.count ≠ c) :
    ∃ up, ss.insert pk child = some up ∧ up.Sorted ∧
      up.count = ss.count + (if se ss pk = none then 1 else 0) ∧
      ∀ u s, up.Holds u s ↔ if u = pk then s = child else ss.Holds u s := by
  cases hf : se ss pk with
  | none =>
    have ha (o : C) (hh : ss.Holds pk o) : False := by
      rw [← hre, hf] at hh
      cases hh
    exact insert_absent hso (lt_of_le_of_ne hso.bound (hr hf)) ha child
  | some o =>
    obtain ⟨up, hd, hk, _, hs, hh⟩ := insert_present hso ((hre _ _).mp hf) child
    exact ⟨up, hd, hk, hs, hh⟩

/-- **A child is stored at its byte, and no other child moves.** -/
theorem insertChild_spec (hwf : l.WellFormed) (pk : KeyUnit)
    (child : C) (hr : l.getChild pk = none → l.isFull = false) :
    ∃ up, l.insertChild pk child = some up ∧ up.WellFormed ∧ l.Updates up pk child := by
  cases l with
  | node4 ss =>
    have hso : ss.Sorted := hwf
    obtain ⟨up, hd, hk, -, hh⟩ := slots_insert (fun _ _ => scan_iff hso) hso child
      fun hab => by simpa [isFull] using hr hab
    exact ⟨.node4 up, by rw [insertChild, hd]; rfl, hk,
      updates_of_holds (fun _ _ => scan_iff hso) (fun _ _ => scan_iff hk) hh⟩
  | node16 ss =>
    have hso : ss.Sorted := hwf
    obtain ⟨up, hd, hk, -, hh⟩ := slots_insert (fun _ _ => find_iff hso) hso child
      fun hab => by simpa [isFull] using hr hab
    exact ⟨.node16 up, by rw [insertChild, hd]; rfl, hk,
      updates_of_holds (fun _ _ => find_iff hso) (fun _ _ => find_iff hk) hh⟩
  | node48 ins ch c =>
    have hi : Indexed ins ch c := hwf
    have hbo := hi.bound
    by_cases he : ins pk = 256
    · have hl : c < 48 := by
        have ho : c ≠ 48 := by simpa [isFull] using hr (if_pos he)
        omega
      refine ⟨_, if_pos ⟨hl, he⟩, ⟨hl, fun u => ?_, fun f s hu hs => ?_, fun sl low => ?_⟩,
        fun u => ?_⟩
      · rcases eq_or_ne u pk with rfl | ho
        · exact Or.inr (by simp)
        · rw [update_of_ne ho]
          exact (hi.range u).imp_right fun low => by omega
      · rcases eq_or_ne f pk with rfl | hle <;> rcases eq_or_ne s f with rfl | hri
        · rfl
        · rw [update_self, update_of_ne hri] at hs
          have := hi.range s
          omega
        · rfl
        · rw [update_of_ne hle] at hu hs
          rcases eq_or_ne s pk with rfl | ha
          · rw [update_self] at hs
            have := hi.range f
            omega
          · rw [update_of_ne ha] at hs
            exact hi.injective f s hu hs
      · rcases eq_or_ne sl c with rfl | ho
        · simp
        · rw [update_of_ne ho]
          exact hi.filled sl (by omega)
      · rcases eq_or_ne u pk with rfl | ho
        · have hdi : c ≠ 256 := by omega
          simp [getChild, hdi]
        · have low := hi.range u
          simp only [getChild, update_of_ne ho, if_neg ho]
          split_ifs with none
          · rfl
          · rw [update_of_ne (by omega)]
    · have low : ins pk < c := (hi.range pk).resolve_left he
      refine ⟨.node48 ins (update ch (ins pk) (some child)) c, ?_,
        ⟨hbo, hi.range, hi.injective, fun sl hu => ?_⟩, fun u => ?_⟩
      · rw [insertChild, if_neg fun hb => he hb.2, if_pos (by omega)]
      · rcases eq_or_ne sl (ins pk) with rfl | ho
        · simp
        · rw [update_of_ne ho]
          exact hi.filled sl hu
      · rcases eq_or_ne u pk with rfl | ho
        · simp [getChild, he]
        · simp only [getChild, if_neg ho]
          split_ifs with none
          · rfl
          · rw [update_of_ne fun hs => ho (hi.injective u pk none hs)]
  | node256 ch c =>
    refine ⟨_, rfl, trivial, fun u => ?_⟩
    simp only [getChild, update_apply]

variable (k : Nat → KeyUnit) (count ct : Nat)

/-! ### Growing -/

theorem indexChildren_succ : indexChildren k (ct + 1) = update (indexChildren k ct) (k ct) ct := by
  rw [indexChildren, range_succ, foldl_append]
  rfl

theorem indexChildren_spec (u : KeyUnit) : (indexChildren k ct u = 256 ∧ ∀ s, s < ct → k s ≠ u) ∨
      (indexChildren k ct u < ct ∧ k (indexChildren k ct u) = u) := by
  induction ct with
  | zero => exact Or.inl ⟨rfl, fun s low => absurd low (Nat.not_lt_zero _)⟩
  | succ ct ih =>
    rw [indexChildren_succ]
    by_cases hs : k ct = u
    · subst hs
      exact Or.inr ⟨by simp, by simp⟩
    · rw [update_of_ne (Ne.symm hs)]
      rcases ih with ⟨hn, ha⟩ | ⟨low, hh⟩
      · refine Or.inl ⟨hn, fun s hu => ?_⟩
        rcases Nat.lt_succ_iff_lt_or_eq.mp hu with he | rfl
        · exact ha s he
        · exact hs
      · exact Or.inr ⟨by omega, hh⟩

/-- **A full node grows into a larger one with the same children.** -/
theorem grow_spec (hwf : l.WellFormed) (hfu : l.isFull = true) :
    ∃ g, l.grow = some g ∧ g.WellFormed ∧ g.isFull = false ∧ ∀ u, g.getChild u = l.getChild u := by
  cases l with
  | node4 ss =>
    have hso : ss.Sorted := hwf
    have hfo : ss.count = 4 := by simpa [isFull] using hfu
    have hk : (⟨fun sl => if sl < ss.count then ss.keys sl else Fin.ofNat 256 sl,
        fun sl => if sl < ss.count then ss.values sl else none, 4⟩ :
            Slots 16 KeyUnit C).Sorted := by
      refine ⟨by simp only; omega, fun f s hl hu => ?_, fun sl => ?_⟩
      · simp only at hu ⊢
        rw [if_pos (by omega), if_pos (by omega)]
        exact hso.increasing _ _ hl (by omega)
      · simp only
        split_ifs with low
        · rw [hso.filled, hfo]
        · simp only [Option.isSome_none, Bool.false_eq_true, false_iff]
          omega
    refine ⟨createNode16 ss, rfl, hk, rfl, fun u => Option.ext fun st => ?_⟩
    refine (find_iff hk).trans (Iff.trans ?_ (scan_iff hso).symm)
    constructor
    · rintro ⟨sl, hu, hh, hho⟩
      simp only at hu hh hho
      rw [if_pos (by omega)] at hh hho
      exact ⟨sl, by omega, hh, hho⟩
    · rintro ⟨sl, hu, hh, hho⟩
      refine ⟨sl, by simp only; omega, ?_, ?_⟩
      · simp only [if_pos hu, hh]
      · simp only [if_pos hu, hho]
  | node16 ss =>
    have hso : ss.Sorted := hwf
    have hb := hso.bound
    have hsp := indexChildren_spec ss.keys ss.count
    refine ⟨createNode48 ss, rfl, ⟨by omega, fun u => ?_, fun f s hu hs => ?_,
      fun sl low => ?_⟩, ?_, fun u => ?_⟩
    · exact (hsp u).imp And.left And.left
    · rcases hsp f with ⟨none, _⟩ | ⟨_, hh⟩
      · exact absurd none hu
      · rcases hsp s with ⟨none, _⟩ | ⟨_, ht⟩
        · exact absurd (hs.trans none) hu
        · rw [← hh, ← ht, hs]
    · rw [if_pos low, hso.filled]
      exact low
    · simp only [createNode48, isFull, decide_eq_false_iff_not]
      omega
    · refine Option.ext fun st => Iff.trans ?_ (find_iff hso).symm
      rcases hsp u with ⟨none, ha⟩ | ⟨low, hh⟩
      · simp only [createNode48, getChild, none, if_true]
        refine ⟨fun hf => (by cases hf), ?_⟩
        rintro ⟨sl, hu, hm, _⟩
        exact absurd hm (ha sl hu)
      · have hu : indexChildren ss.keys ss.count u ≠ 256 := by omega
        simp only [createNode48, getChild, if_neg hu, if_pos low]
        constructor
        · exact fun hho => ⟨_, low, hh, hho⟩
        · rintro ⟨sl, hiu, hm, hho⟩
          rwa [← hso.injective hiu low (hm.trans hh.symm)]
  | node48 ins c count =>
    exact ⟨createNode256 ins c count, rfl, trivial, rfl, fun u => rfl⟩
  | node256 c count => cases hfu

/-! ### Counting -/

def nChildren : Layout C → Nat
  | .node4 slots => slots.count
  | .node16 slots => slots.count
  | .node48 _ _ count => count
  | .node256 _ count => count

/-- The bytes in the sorted arrays. -/
def partialKeys : Layout C → List KeyUnit
  | .node4 slots => (List.range slots.count).map slots.keys
  | .node16 slots => (List.range slots.count).map slots.keys
  | .node48 .. | .node256 .. => []

def UpTo48 : Layout C → Prop
  | .node4 _ | .node16 _ | .node48 .. => True
  | .node256 .. => False

theorem WellFormed.pairwise_partialKeys (hwf : l.WellFormed) : l.partialKeys.Pairwise (· < ·) := by
  have ho {c : Nat} {ss : Slots c KeyUnit C} (hs : ss.Sorted) :
      ((range ss.count).map ss.keys).Pairwise (· < ·) := by
    rw [pairwise_map]
    exact pairwise_lt_range.imp_of_mem fun _ hu hl => hs.increasing _ _ hl (mem_range.mp hu)
  cases l with
  | node4 ss | node16 ss => exact ho hwf
  | node48 | node256 => exact .nil

/-- **A child at a new byte** is counted. -/
theorem nChildren_insertChild {u : Layout C} (hwf : l.WellFormed) (hs : l.UpTo48)
    (hr : l.getChild pk = none → l.isFull = false)
    (hd : l.insertChild pk child = some u) :
    u.nChildren = l.nChildren + if l.getChild pk = none then 1 else 0 := by
  cases l with
  | node4 ss =>
    obtain ⟨a, hi, -, hc, -⟩ := slots_insert (fun _ _ => scan_iff hwf) hwf child
      fun ha => by simpa [isFull] using hr ha
    rw [insertChild, hi] at hd
    cases hd
    exact hc
  | node16 ss =>
    obtain ⟨a, hi, -, hc, -⟩ := slots_insert (fun _ _ => find_iff hwf) hwf child
      fun ha => by simpa [isFull] using hr ha
    rw [insertChild, hi] at hd
    cases hd
    exact hc
  | node48 ins c count =>
    rw [insertChild] at hd
    split_ifs at hd with hfr hu
    · cases hd
      exact congrArg (count + ·) (if_pos (if_pos hfr.2)).symm
    · cases hd
      have ht : ins pk ≠ 256 := by omega
      have hf := hwf.filled _ ((hwf.range pk).resolve_left ht)
      rw [getChild, if_neg ht, if_neg (Option.isSome_iff_ne_none.mp hf)]
      rfl
  | node256 => exact hs.elim

theorem UpTo48.of_insertChild {u : Layout C} (hd : l.insertChild pk child = some u)
    (hs : u.UpTo48) : l.UpTo48 := by
  cases l with
  | node256 c count =>
    cases hd
    exact hs
  | node4 | node16 | node48 => trivial

theorem nChildren_grow {g : Layout C} (hf : l.isFull = true) (hd : l.grow = some g)
    (hs : g.UpTo48) : l.UpTo48 ∧ g.nChildren = l.nChildren := by
  cases l with
  | node4 ss =>
    cases hd
    exact ⟨trivial, (of_decide_eq_true hf).symm⟩
  | node16 ss =>
    cases hd
    exact ⟨trivial, rfl⟩
  | node48 =>
    cases hd
    exact hs.elim
  | node256 => cases hf

end Layout

/-! ### Nodes -/

/-- An inner node: the bytes in front of it, and its layout. -/
structure InnerNode (C : Type) where
  prefixLen : BitVec 16
  nodePrefix : List KeyUnit
  layout : Layout C

namespace InnerNode

variable {C : Type}

/-- `ARTNode_4::create`, with the prefix that the caller gives it. -/
def create (prefixLen : Nat) (nodePrefix : List KeyUnit) : InnerNode C :=
    ⟨.ofNat 16 prefixLen, nodePrefix, .createNode4⟩

def grow (node : InnerNode C) : Option (InnerNode C) :=
  node.layout.grow.map fun layout => ⟨.ofNat 16 node.prefixLen.toNat, node.nodePrefix, layout⟩

def makeRoom (node : InnerNode C) (partialKey : KeyUnit) : Option (InnerNode C) :=
  if node.layout.isFull ∧ node.layout.getChild partialKey = none then node.grow else some node

def insertChild (node : InnerNode C) (entry : KeyUnit × C) : Option (InnerNode C) := do
  let node ← node.makeRoom entry.1
  return { node with layout := ← node.layout.insertChild entry.1 entry.2 }

def insertChildren (node : InnerNode C) (entries : List (KeyUnit × C)) : Option (InnerNode C) :=
  entries.foldlM insertChild node

structure Maps (node : InnerNode C) (entries : List (KeyUnit × C)) : Prop where
  wellFormed : node.layout.WellFormed
  children : ∀ unit, node.layout.getChild unit = (entries.reverse.find? (·.1 = unit)).map Prod.snd
  counted : node.layout.UpTo48 → node.layout.nChildren = (entries.map Prod.fst).toFinset.card

/-- The same prefix. -/
def SamePrefix (node other : InnerNode C) : Prop :=
  other.prefixLen = node.prefixLen ∧ other.nodePrefix = node.nodePrefix

variable {node : InnerNode C} {entries es : List (KeyUnit × C)}

theorem samePrefix_grow {g : InnerNode C} (hd : node.grow = some g) : node.SamePrefix g := by
  obtain ⟨l, -, rfl⟩ := Option.map_eq_some_iff.mp hd
  exact ⟨BitVec.ofNat_toNat .. |>.trans (BitVec.setWidth_eq _), rfl⟩

theorem makeRoom_maps (hm : node.Maps es) (pk : KeyUnit) :
    ∃ n, node.makeRoom pk = some n ∧ n.Maps es ∧ node.SamePrefix n ∧
      (n.layout.getChild pk = none → n.layout.isFull = false) := by
  rw [makeRoom]
  split
  · rename_i hre
    obtain ⟨g, hd, hwf, hr, hs⟩ := Layout.grow_spec hm.wellFormed hre.1
    have hg : node.grow = some ⟨.ofNat 16 node.prefixLen.toNat, node.nodePrefix, g⟩ := by
      rw [grow, hd]
      rfl
    refine ⟨_, hg, ⟨hwf, fun u => (hs u).trans (hm.children u), fun hsm => ?_⟩,
      samePrefix_grow hg, fun _ => hr⟩
    obtain ⟨hsr, hc⟩ := Layout.nChildren_grow hre.1 hd hsm
    exact hc.trans (hm.counted hsr)
  · rename_i hk
    exact ⟨node, rfl, hm, ⟨rfl, rfl⟩, fun ha => Bool.eq_false_iff.mpr fun hf => hk ⟨hf, ha⟩⟩

/-- **One insertion** adds one entry to the map. -/
theorem insertChild_maps (hma : node.Maps es) (e : KeyUnit × C) :
    ∃ n, node.insertChild e = some n ∧ n.Maps (es ++ [e]) ∧ node.SamePrefix n := by
  obtain ⟨l, hm, hma, hs, hr⟩ := makeRoom_maps hma e.1
  obtain ⟨up, hd, hwf, hu⟩ := Layout.insertChild_spec hma.wellFormed e.1 e.2 hr
  refine ⟨{ l with layout := up }, ?_, ⟨hwf, fun u => ?_, fun hsm => ?_⟩, hs⟩
  · rw [insertChild, hm]
    simp only [bind, Option.bind, hd]
    rfl
  · rw [hu u, hma.children u, reverse_concat, find?_cons]
    by_cases hh : e.1 = u
    · simp [hh]
    · simp [hh, Ne.symm hh]
  · have hb := Layout.UpTo48.of_insertChild hd hsm
    have hc := Layout.nChildren_insertChild hma.wellFormed hb hr hd
    have ha : l.layout.getChild e.1 = none ↔ e.1 ∉ (es.map Prod.fst).toFinset := by
      simp only [hma.children, Option.map_eq_none_iff, find?_eq_none, mem_reverse,
        decide_eq_true_iff,
        mem_toFinset, mem_map, not_exists, not_and]
    rw [hc, hma.counted hb, map_append, toFinset_append, map_singleton,
      toFinset_cons, toFinset_nil, insert_empty_eq, Finset.union_singleton]
    split
    · rename_i new
      rw [Finset.card_insert_of_notMem (ha.mp new)]
    · rename_i old
      rw [Finset.insert_eq_of_mem (by_contra fun new => old (ha.mpr new)), Nat.add_zero]

/-- **The four layouts are one map.** After any sequence of insertions, with the growths on the way,
each byte has its last child. The prefix is the same throughout, the children are counted as long as
there is a count, and the sorted arrays are sorted. -/
theorem insertChildren_map (prefixLen : Nat) (nodePrefix : List KeyUnit)
    (entries : List (KeyUnit × C)) :
    ∃ node, (create prefixLen nodePrefix).insertChildren entries = some node ∧
      (∀ unit, node.layout.getChild unit = (entries.reverse.find? (·.1 = unit)).map Prod.snd) ∧
      node.prefixLen = .ofNat 16 prefixLen ∧ node.nodePrefix = nodePrefix ∧
      (∀ grown, node.grow = some grown → grown.prefixLen = node.prefixLen ∧
        grown.nodePrefix = node.nodePrefix) ∧
      (node.layout.UpTo48 → node.layout.nChildren = (entries.map Prod.fst).toFinset.card) ∧
      node.layout.partialKeys.Pairwise (· < ·) := by
  have run : ∃ node, (create prefixLen nodePrefix).insertChildren entries = some node ∧
    node.Maps entries ∧ (create prefixLen nodePrefix).SamePrefix node := by
    induction entries using reverseRecOn with
    | nil =>
        exact ⟨_, rfl, ⟨Layout.createNode4_wellFormed, Layout.createNode4_getChild, fun _ => rfl⟩,
          rfl, rfl⟩
    | append_singleton entries e ih =>
      obtain ⟨node, ran, hm, hs⟩ := ih
      obtain ⟨n, hd, hm, hst⟩ := insertChild_maps hm e
      refine ⟨n, ?_, hm, hst.1.trans hs.1, hst.2.trans hs.2⟩
      rw [insertChildren] at ran ⊢
      simp [foldlM_append, ran, hd]
  obtain ⟨node, ran, hm, hs⟩ := run
  exact ⟨node, ran, hm.children, hs.1, hs.2, fun _ => samePrefix_grow, hm.counted,
    hm.wellFormed.pairwise_partialKeys⟩

end InnerNode

end Proteus.Oltp.Index
