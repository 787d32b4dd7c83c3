/-
**The adaptive radix tree on one thread** (`oltp/index/ART/art.hpp`).

Keys are the `width` bytes of an integer, in memory order (`convertKey` leaves integers alone). A
leaf holds its whole key; an inner node holds the bytes that all keys below it share (`prefix`) and
its children by the next byte. No version word of a node ever makes the only thread restart, so the
locks are left out; a child that is modified in place is written back into its slot.

`insertNode` is `insert_recursive_opt`: an empty slot, a mismatch in the prefix, a missing child in
a node with room or in a full one, a leaf to split or to find, and the descent. A `Fault` is a null
node, a byte behind the key, or an overflowing or overgrown node.

* `Stored` — the invariant: a leaf lies on the path its own bytes spell, and an inner node decides
  at a byte of the key, between two children at least.
* `insertNode_spec` — one insertion keeps it, keeps every leaf, and adds the new one unless its key
  is there (`Member` is what a tree holds).
* `insertAll_spec`, `find_first_inserted` — every sequence of insertions.
-/

import Proteus.Oltp.Index.ArtNode

namespace Proteus.Oltp.Index

open List Option

/-- The bytes of an integer key. -/
structure Key (width : Nat) where
  units : List KeyUnit
  length : units.length = width
deriving DecidableEq

inductive Fault where
  | nullNode
  | keyIndex
  | nodeCapacity
  | depth
deriving DecidableEq, Repr

inductive Node (width : Nat) (V : Type) where
  | leaf (key : Key width) (value : V)
  | inner (nodePrefix : List KeyUnit) (layout : Layout (Node width V))

variable {width : Nat} {V : Type}

/-- `key[index]` -/
def Key.unit (key : Key width) (index : Nat) : Except Fault KeyUnit :=
  match key.units[index]? with
  | some unit => .ok unit
  | none => .error .keyIndex

/-- `copyPrefix` from a key. -/
def Key.slice (key : Key width) (depth len : Nat) : List KeyUnit :=
  (key.units.drop depth).take len

/-- An array access that stays inside. -/
def checked {α : Type} : Option α → Except Fault α
  | some value => .ok value
  | none => .error .nodeCapacity

def prefixMatch (key : Key width) (depth : Nat) : List KeyUnit → Except Fault Nat
  | [] => .ok 0
  | expected :: rest => do
    let unit ← key.unit depth
    if unit ≠ expected then .ok 0
    else do
      let len ← prefixMatch key (depth + 1) rest
      .ok (len + 1)

/-! ### Lookup -/

def getByKey (key : Key width) : Nat → Node width V → Nat → Except Fault (Option V)
  | 0, _, _ => .error .depth
  | _ + 1, .leaf stored value, _ => .ok (if key = stored then some value else none)
  | fuel + 1, .inner nodePrefix layout, depth => do
    let len ← prefixMatch key depth nodePrefix
    if len ≠ nodePrefix.length then .ok none
    else do
      let unit ← key.unit (depth + nodePrefix.length)
      match layout.getChild unit with
      | none => .error .nullNode
      | some child => getByKey key fuel child (depth + nodePrefix.length + 1)

def findImpl (root : Option (Node width V)) (key : Key width) : Except Fault (Option V) :=
  match root with
  | none => .ok none
  | some node => getByKey key (width + 1) node 0

/-- `find(key, value)`: the result, and `value` after the call. -/
def find (root : Option (Node width V)) (key : Key width) (value : V) :
    Except Fault (Bool × V) := do
  match ← findImpl root key with
  | some found => .ok (true, found)
  | none => .ok (false, value)

/-- `find(key)` -/
def findValue [Inhabited V] (root : Option (Node width V)) (key : Key width) : Except Fault V := do
  match ← findImpl root key with
  | some found => .ok found
  | none => .ok default

/-! ### Insertion -/

def sharedFrom (first second : Key width) : Nat → Nat → Nat
  | 0, _ => 0
  | left + 1, index =>
    if first.units[index]? = second.units[index]? then
      sharedFrom first second left (index + 1) + 1 else 0

def twoChildren (first : KeyUnit) (left : Node width V) (second : KeyUnit) (right : Node width V) :
    Except Fault (Layout (Node width V)) := do
  let layout ← checked (Layout.createNode4.insertChild first left)
  checked (layout.insertChild second right)

def roomFor (layout : Layout (Node width V)) : Except Fault (Layout (Node width V)) :=
  if layout.isFull then checked layout.grow else .ok layout

def insertNode (key : Key width) (value : V) : Nat → Option (Node width V) → Nat →
    Except Fault (Node width V)
  | 0, _, _ => .error .depth
  | _ + 1, none, _ => .ok (.leaf key value)
  | _ + 1, some (.leaf key2 old), depth =>
    let newPrefixLength := sharedFrom key2 key (width - depth) depth
    if width ≤ depth + newPrefixLength then .ok (.leaf key2 old)
    else do
      let unit2 ← key2.unit (depth + newPrefixLength)
      let unit ← key.unit (depth + newPrefixLength)
      let layout ← twoChildren unit2 (.leaf key2 old) unit (.leaf key value)
      .ok (.inner (key.slice depth newPrefixLength) layout)
  | fuel + 1, some (.inner nodePrefix layout), depth => do
    let mismatch ← prefixMatch key depth nodePrefix
    if mismatch ≠ nodePrefix.length then do
      let unit ← key.unit (depth + mismatch)
      let expected ← checked nodePrefix[mismatch]?
      let split ← twoChildren unit (.leaf key value) expected
        (.inner (nodePrefix.drop (mismatch + 1)) layout)
      .ok (.inner (nodePrefix.take mismatch) split)
    else do
      let unit ← key.unit (depth + nodePrefix.length)
      match layout.getChild unit with
      | none =>
        let roomy ← roomFor layout
        let updated ← checked (roomy.insertChild unit (.leaf key value))
        .ok (.inner nodePrefix updated)
      | some child =>
        let child ← insertNode key value fuel (some child) (depth + nodePrefix.length + 1)
        let updated ← checked (layout.insertChild unit child)
        .ok (.inner nodePrefix updated)

/-- `insert` -/
def insert (root : Option (Node width V)) (entry : Key width × V) :
    Except Fault (Option (Node width V)) := do
  let node ← insertNode entry.1 entry.2 (width + 1) root 0
  .ok (some node)

/-- A sequence of insertions into the empty tree. -/
def insertAll (entries : List (Key width × V)) : Except Fault (Option (Node width V)) :=
  entries.foldlM insert none

/-! ### What a tree holds, and the invariant -/

/-- A leaf of the tree. -/
inductive Member : Node width V → Key width → V → Prop
  | leaf (key : Key width) (value : V) : Member (.leaf key value) key value
  | inner {nodePrefix : List KeyUnit} {layout : Layout (Node width V)} {unit : KeyUnit}
      {child : Node width V} {key : Key width} {value : V}
      (below : layout.getChild unit = some child)
      (member : Member child key value) : Member (.inner nodePrefix layout) key value

/-- **The invariant of a subtree at the end of `path`.** -/
inductive Stored : List KeyUnit → Node width V → Prop
  | leaf {path : List KeyUnit} {key : Key width} {value : V} (spelled : path <+: key.units) :
      Stored path (.leaf key value)
  | inner {path nodePrefix : List KeyUnit} {layout : Layout (Node width V)}
      (short : path.length + nodePrefix.length < width) (wellFormed : layout.WellFormed)
      (children : ∀ unit child, layout.getChild unit = some child →
        Stored (path ++ nodePrefix ++ [unit]) child)
      (branches : ∃ first second, first ≠ second ∧ (layout.getChild first).isSome ∧
        (layout.getChild second).isSome) : Stored path (.inner nodePrefix layout)

/-! ### Keys and paths -/

variable {unit : KeyUnit} {np : List KeyUnit} {m f : Nat}

open Key Or

section

variable {k o : Key width} {p : List KeyUnit}

theorem Key.ext_units (hs : k.units = o.units) : k = o := by
  cases k
  cases o
  cases hs
  rfl

theorem Key.unit_eq {i : Nat} (hf : k.units[i]? = some unit) : k.unit i = .ok unit := by
  rw [Key.unit, hf]

theorem Key.exists_unit (k : Key width) (i : Nat) (low : i < width) : ∃ unit,
    k.units[i]? = some unit :=
  ⟨_, List.getElem?_eq_getElem (by rw [k.length]; exact low)⟩

theorem spelled_snoc (hs : p <+: k.units) :
    p ++ [unit] <+: k.units ↔ k.units[p.length]? = some unit := by
  obtain ⟨tl, hw⟩ := hs
  rw [← hw, prefix_append_right_inj, List.getElem?_append_right le_rfl, Nat.sub_self]
  cases tl with
  | nil => simp
  | cons hd t => simp [cons_prefix_cons, eq_comm]

theorem deeper_length (p np : List KeyUnit) (unit : KeyUnit) :
    (p ++ np ++ [unit]).length = p.length + np.length + 1 := by
  rw [length_append, length_append, length_singleton]

/-- **Comparison of a key with a prefix**: how far they agree, and how they part. -/
theorem prefixMatch_spec (np : List KeyUnit) (hsp : p <+: k.units)
    (hsh : p.length + np.length ≤ width) :
    ∃ len, prefixMatch k p.length np = .ok len ∧ p ++ np.take len <+: k.units ∧
      ((len = np.length) ∨ ∃ e unit, np[len]? = some e ∧
        k.units[p.length + len]? = some unit ∧ unit ≠ e) := by
  induction np generalizing p with
  | nil => exact ⟨0, rfl, by simpa using hsp, inl rfl⟩
  | cons e tl ih =>
    simp only [length_cons] at hsh
    obtain ⟨unit, hf⟩ := k.exists_unit p.length (by omega)
    by_cases hs : unit = e
    · subst hs
      have hl := (spelled_snoc hsp).mpr hf
      obtain ⟨len, hd, hag, hp⟩ := ih hl (by simp; omega)
      refine ⟨len + 1, ?_, ?_, ?_⟩
      · rw [length_append, length_singleton] at hd
        rw [prefixMatch, unit_eq hf]
        simp only [bind, Except.bind, ne_eq, not_true_eq_false, if_false, hd]
      · simpa using hag
      · refine hp.imp (fun all => by simp [all]) ?_
        rintro ⟨e, o, ht, hh, ha⟩
        refine ⟨e, o, by simpa using ht, ?_, ha⟩
        rw [← hh]
        congr 1
        simp
        omega
    · refine ⟨0, ?_, by simpa using hsp, inr ⟨e, unit, rfl, by simpa using hf, hs⟩⟩
      rw [prefixMatch, unit_eq hf]
      simp only [bind, Except.bind, ne_eq, hs, not_false_eq_true, if_true]

theorem prefixMatch_eq (ha : p ++ np <+: k.units) : prefixMatch k p.length np = .ok np.length := by
  induction np generalizing p with
  | nil => rfl
  | cons e tl ih =>
    have hs : p <+: k.units := (prefix_append _ _).trans ha
    rw [append_cons] at ha
    have hh := (spelled_snoc hs).mp ((prefix_append _ _).trans ha)
    have hd := ih ha
    rw [length_append, length_singleton] at hd
    rw [prefixMatch, unit_eq hh]
    simp only [bind, Except.bind, ne_eq, not_true_eq_false, if_false, hd, length_cons]

/-- **Comparison of two keys**: the bytes they share behind a common path, and how they part. -/
theorem sharedFrom_spec (l : Nat) (hsp : p <+: k.units) (other_spelled : p <+: o.units)
    (hr : p.length + l = width) :
    p ++ k.slice p.length (sharedFrom o k l p.length) <+: k.units ∧
      p ++ k.slice p.length (sharedFrom o k l p.length) <+: o.units ∧
      (k.slice p.length (sharedFrom o k l p.length)).length = sharedFrom o k l p.length ∧
      (sharedFrom o k l p.length = l ∨
        ∃ unit e, k.units[p.length + sharedFrom o k l p.length]? = some unit ∧
          o.units[p.length + sharedFrom o k l p.length]? = some e ∧
          unit ≠ e) := by
  induction l generalizing p with
  | zero => simp [sharedFrom, slice, hsp, other_spelled]
  | succ l ih =>
    obtain ⟨unit, hf⟩ := k.exists_unit p.length (by omega)
    obtain ⟨e, ht⟩ := o.exists_unit p.length (by omega)
    by_cases hs : o.units[p.length]? = k.units[p.length]?
    · have hlo := (spelled_snoc hsp).mpr hf
      have hol := (spelled_snoc other_spelled).mpr (hs.trans hf)
      obtain ⟨hfi, hse, hl, hp⟩ := ih hlo hol (by simp; omega)
      have slice : ∀ len, k.slice p.length (len + 1) = unit :: k.slice
          (p ++ [unit]).length len := by
        intro len
        have low : p.length < k.units.length := by rw [k.length]; omega
        have hhe := some.inj ((List.getElem?_eq_getElem low).symm.trans hf)
        rw [slice, slice, drop_eq_getElem_cons low, take_succ_cons, hhe]
        simp
      simp only [length_append, length_singleton] at *
      rw [sharedFrom, if_pos hs, slice]
      refine ⟨by simpa using hfi, by simpa using hse, by simpa using hl, ?_⟩
      refine hp.imp (fun all => by rw [all]) ?_
      rintro ⟨unit, e, hh, ht, ha⟩
      exact ⟨unit, e, by rw [← hh]; congr 1; omega, by rw [← ht]; congr 1; omega, ha⟩
    · rw [sharedFrom, if_neg hs]
      refine ⟨by simpa [slice] using hsp, by simpa [slice] using other_spelled,
        by simp [slice], inr ⟨unit, e, by simpa using hf, by simpa using ht, ?_⟩⟩
      rintro rfl
      exact hs (ht.trans hf.symm)

end

/-! ### Subtrees -/

open Layout

section

variable {k o : Key width} {v : V} {path pa nodePrefix : List KeyUnit}
  {layout l : Layout (Node width V)} {n : Node width V}

theorem member_inner : Member (.inner nodePrefix l) k v ↔
    ∃ unit c, l.getChild unit = some c ∧ Member c k v := by
  constructor
  · rintro (_ | ⟨hb, hm⟩)
    exact ⟨_, _, hb, hm⟩
  · rintro ⟨unit, c, hb, hm⟩
    exact .inner hb hm

/-- **Every leaf lies on the path its bytes spell.** -/
theorem Stored.spelled (hs : Stored pa n) (hm : Member n k v) : pa <+: k.units := by
  induction hs with
  | leaf hsp =>
    cases hm
    exact hsp
  | inner _ _ _ _ ih =>
    obtain ⟨unit, c, hb, hm⟩ := member_inner.mp hm
    have hd := ih unit c hb hm
    rw [append_assoc] at hd
    exact (prefix_append _ _).trans hd

/-- What the invariant says of an inner node. -/
structure InnerParts (path nodePrefix : List KeyUnit) (layout : Layout (Node width V)) : Prop where
  short : path.length + nodePrefix.length < width
  wellFormed : layout.WellFormed
  children : ∀ unit child, layout.getChild unit = some child →
    Stored (path ++ nodePrefix ++ [unit]) child
  branches : ∃ first second, first ≠ second ∧ (layout.getChild first).isSome ∧
    (layout.getChild second).isSome

/-- **One step of a walk**: the key parts from the prefix of the node, or goes on with one of its
bytes. -/
theorem walk_inner (hs : pa.length + nodePrefix.length < width) (hsp : pa <+: k.units) :
    (∃ m e unit, prefixMatch k pa.length nodePrefix = .ok m ∧
      pa ++ nodePrefix.take m <+: k.units ∧ nodePrefix[m]? = some e ∧
      k.units[pa.length + m]? = some unit ∧ unit ≠ e) ∨
    ∃ unit, prefixMatch k pa.length nodePrefix = .ok nodePrefix.length ∧
      k.units[pa.length + nodePrefix.length]? = some unit ∧
          pa ++ nodePrefix ++ [unit] <+: k.units := by
  obtain ⟨m, hc, hag, rfl | ⟨e, unit, ht, hh, ha⟩⟩ := prefixMatch_spec nodePrefix hsp hs.le
  · rw [take_length] at hag
    obtain ⟨unit, hh⟩ := k.exists_unit (pa.length + nodePrefix.length) hs
    exact .inr ⟨unit, hc, hh, (spelled_snoc hag).mpr (by rw [length_append]; exact hh)⟩
  · exact .inl ⟨m, e, unit, hc, hag, ht, hh, ha⟩

theorem not_spelled_of_mismatch {e : KeyUnit}
    (ht : nodePrefix[m]? = some e) (hh : k.units[pa.length + m]? = some unit)
    (ha : unit ≠ e) : ¬ pa ++ nodePrefix <+: k.units := by
  intro hag
  obtain ⟨tl, hw⟩ := hag
  rw [← hw, append_assoc, List.getElem?_append_right (Nat.le_add_right _ _),
    Nat.add_sub_cancel_left,
    List.getElem?_append_left (List.getElem?_eq_some_iff.mp ht).1, ht] at hh
  exact ha (some.inj hh).symm

theorem member_child (hc : ∀ unit c, l.getChild unit = some c →
      Stored (pa ++ nodePrefix ++ [unit]) c)
    (hh : pa ++ nodePrefix ++ [unit] <+: k.units) :
    Member (.inner nodePrefix l) k v ↔ ∃ c, l.getChild unit = some c ∧ Member c k v := by
  rw [member_inner]
  constructor
  · rintro ⟨o, c, hb, hm⟩
    have ht := (hc o c hb).spelled hm
    obtain ⟨f, hl⟩ := hh
    obtain ⟨s, hr⟩ := ht
    rw [← hl, append_assoc _ [o], append_assoc _ [unit]] at hr
    obtain rfl : o = unit := (List.cons.inj (append_cancel_left hr)).1
    exact ⟨c, hb, hm⟩
  · rintro ⟨c, hb, hm⟩
    exact ⟨unit, c, hb, hm⟩

theorem Stored.nonempty (hs : Stored pa n) : ∃ k v, Member n k v := by
  induction hs with
  | leaf => exact ⟨_, _, .leaf _ _⟩
  | inner _ _ _ hbr ih =>
    obtain ⟨f, _, _, hso, _⟩ := hbr
    obtain ⟨c, hb⟩ := isSome_iff_exists.mp hso
    obtain ⟨k, v, hm⟩ := ih f c hb
    exact ⟨k, v, .inner hb hm⟩

theorem twoChildren_spec {f s : KeyUnit} {l r : Node width V} (ha : f ≠ s)
    (hs : pa.length + nodePrefix.length < width)
    (hls : Stored (pa ++ nodePrefix ++ [f]) l)
    (hrs : Stored (pa ++ nodePrefix ++ [s]) r) :
    ∃ layout, twoChildren f l s r = .ok layout ∧ Stored pa (.inner nodePrefix layout) ∧
      ∀ k v, Member (.inner nodePrefix layout) k v ↔ Member l k v ∨ Member r k v := by
  obtain ⟨one, hdo, hwo, huo⟩ := insertChild_spec createNode4_wellFormed f l fun _ => rfl
  obtain ⟨two, hdt, hwt, hut⟩ := insertChild_spec hwo s r
    fun _ => createNode4_insertChild_isFull hdo
  have hgc : ∀ unit, two.getChild unit =
      if unit = s then some r else if unit = f then some l else none := by
    intro unit
    rw [hut, huo, createNode4_getChild]
  refine ⟨two, ?_, .inner hs hwt (fun unit c hb => ?_) ⟨f, s, ha, ?_, ?_⟩, fun k v => ?_⟩
  · simp only [twoChildren, hdo, checked, bind, Except.bind, hdt]
  · rw [hgc] at hb
    split_ifs at hb with his hif
    · cases hb
      exact his ▸ hrs
    · cases hb
      exact hif ▸ hls
  · simp [hgc, ha]
  · simp [hgc]
  · rw [member_inner]
    constructor
    · rintro ⟨unit, c, hb, hm⟩
      rw [hgc] at hb
      split_ifs at hb
      · cases hb
        exact inr hm
      · cases hb
        exact inl hm
    · rintro (hm | hm)
      · exact ⟨f, l, by simp [hgc, ha], hm⟩
      · exact ⟨s, r, by simp [hgc], hm⟩

/-- **An inner node with one child added or exchanged.** -/
theorem updated_spec (hp : InnerParts pa nodePrefix l)
    {u : Layout (Node width V)} {c : Node width V}
    (hwf : u.WellFormed) (hu : l.Updates u unit c)
    (hcs : Stored (pa ++ nodePrefix ++ [unit]) c) :
    Stored pa (.inner nodePrefix u) ∧ ∀ k v, Member (.inner nodePrefix u) k v ↔ Member c k v ∨
        ∃ o b, o ≠ unit ∧ l.getChild o = some b ∧ Member b k v := by
  constructor
  · refine .inner hp.short hwf (fun o b hf => ?_) ?_
    · rw [hu] at hf
      split_ifs at hf with hs
      · cases hf
        exact hs ▸ hcs
      · exact hp.children o b hf
    · obtain ⟨f, s, ha, hl, hr⟩ := hp.branches
      refine ⟨f, s, ha, ?_, ?_⟩
      · rw [hu]
        split_ifs
        · rfl
        · exact hl
      · rw [hu]
        split_ifs
        · rfl
        · exact hr
  · intro k v
    rw [member_inner]
    constructor
    · rintro ⟨o, b, hf, hm⟩
      rw [hu] at hf
      split_ifs at hf with hs
      · cases hf
        exact inl hm
      · exact inr ⟨o, b, hs, hf, hm⟩
    · rintro (hm | ⟨o, b, ha, hf, hm⟩)
      · exact ⟨unit, c, by rw [hu, if_pos rfl], hm⟩
      · exact ⟨o, b, by rw [hu, if_neg ha, hf], hm⟩

end

/-! ### One insertion -/

section

variable {key : Key width} {value : V} {p : List KeyUnit}

def Adds (key : Key width) (value : V) (before after : Node width V) : Prop :=
  ∀ other stored, Member after other stored ↔ Member before other stored ∨
    (other = key ∧ stored = value ∧ ∀ old, ¬ Member before key old)

/-- **A leaf** is kept if it has the key, and split where the two keys part otherwise. -/
theorem insertNode_leaf {ke : Key width} {ol : V} (f : Nat) (hsp : p <+: key.units)
    (hs2 : p <+: ke.units) :
    ∃ a, insertNode key value (f + 1) (some (.leaf ke ol)) p.length = .ok a ∧
      Stored p a ∧ Adds key value (.leaf ke ol) a := by
  have hw : p.length ≤ width := key.length ▸ hsp.length_le
  obtain ⟨hag, ha2, hl, hp⟩ := sharedFrom_spec (width - p.length) hsp hs2 (by omega)
  simp only [insertNode]
  generalize sharedFrom ke key (width - p.length) p.length = sh at *
  by_cases hwh : width ≤ p.length + sh
  · have hs : ke = key := by
      refine ext_units ?_
      have hf : (p ++ key.slice p.length sh).length = width := by
        have := hag.length_le
        rw [length_append, hl, key.length] at *
        omega
      rw [← hag.eq_of_length (hf.trans key.length.symm),
        ← ha2.eq_of_length (hf.trans ke.length.symm)]
    subst hs
    refine ⟨_, if_pos hwh, .leaf hsp, fun o s => ?_⟩
    exact ⟨inl, fun he => he.resolve_right fun ⟨_, _, hab⟩ => hab ol (.leaf _ _)⟩
  · obtain ⟨unit, e, hh, ht, ha⟩ := hp.resolve_left (by omega)
    have hsh : p.length + (key.slice p.length sh).length < width := by omega
    have hlp : (p ++ key.slice p.length sh).length = p.length + sh := by
      rw [length_append, hl]
    have hne := (spelled_snoc hag).mpr (hlp ▸ hh)
    have hn := (spelled_snoc ha2).mpr (hlp ▸ ht)
    obtain ⟨l, hd, s, hme⟩ := twoChildren_spec (Ne.symm ha) hsh
      (.leaf hn : Stored _ (.leaf ke ol)) (.leaf hne : Stored _ (.leaf key value))
    refine ⟨.inner (key.slice p.length sh) l, ?_, s, fun o k => ?_⟩
    · rw [if_neg hwh, unit_eq ht, unit_eq hh]
      simp only [bind, Except.bind, hd]
    · rw [hme]
      refine or_congr_right ⟨?_, ?_⟩
      · rintro ⟨⟩
        refine ⟨rfl, rfl, fun ol hm => ha ?_⟩
        cases hm
        exact some.inj (hh.symm.trans ht)
      · rintro ⟨rfl, rfl, _⟩
        exact .leaf _ _

variable {la : Layout (Node width V)}

/-- **A mismatch in the prefix** puts a new node above the old one. -/
theorem insertNode_split (f : Nat) {e : KeyUnit} (hp : InnerParts p np la)
    (hco : prefixMatch key p.length np = .ok m)
    (hag : p ++ np.take m <+: key.units)
    (ht : np[m]? = some e)
    (hh : key.units[p.length + m]? = some unit) (ha : unit ≠ e) :
    ∃ a, insertNode key value (f + 1) (some (.inner np la)) p.length = .ok a ∧
      Stored p a ∧ Adds key value (.inner np la) a := by
  obtain ⟨hsh, hwf, hc, hbr⟩ := hp
  have low := (List.getElem?_eq_some_iff.mp ht).1
  have hl : (np.take m).length = m := by
    rw [length_take]
    omega
  have hn : p ++ np.take m ++ [unit] <+: key.units := by
    refine (spelled_snoc hag).mpr ?_
    rw [length_append, hl]
    exact hh
  have hr : p ++ np.take m ++ [e] ++ np.drop (m + 1) = p ++ np := by
    have hhe := (List.getElem?_eq_some_iff.mp ht).2
    rw [append_assoc, append_assoc, singleton_append, ← hhe, ← drop_eq_getElem_cons low,
      take_append_drop]
  have hb : Stored (p ++ np.take m ++ [e]) (.inner (np.drop (m + 1)) la) := by
    refine .inner ?_ hwf (fun unit c hf => ?_) hbr
    · rw [← length_append, hr, length_append]
      exact hsh
    · rw [hr]
      exact hc unit c hf
  obtain ⟨s, hd, hst, hme⟩ := twoChildren_spec ha (by omega)
    (.leaf hn : Stored _ (.leaf key value)) hb
  refine ⟨.inner (np.take m) s, ?_, hst, fun o k => ?_⟩
  · simp only [insertNode, hco, bind, Except.bind]
    rw [if_pos low.ne, unit_eq hh, ht]
    simp only [checked, hd]
  · have hs : ∀ o k, Member (.inner (np.drop (m + 1)) la) o k ↔
        Member (.inner np la) o k := fun o k => by
      rw [member_inner, member_inner]
    rw [hme, hs, or_comm]
    refine or_congr_right ⟨?_, ?_⟩
    · rintro ⟨⟩
      refine ⟨rfl, rfl, fun ol hm => ha ?_⟩
      have hf := (spelled_snoc hag).mp (hb.spelled ((hs key ol).mpr hm))
      rw [length_append, hl, hh] at hf
      exact some.inj hf
    · rintro ⟨rfl, rfl, _⟩
      exact .leaf _ _

/-- **A missing child** is added, to a larger node if this one is full. -/
theorem insertNode_missing (f : Nat) (hp : InnerParts p np la)
    (hc : prefixMatch key p.length np = .ok np.length)
    (hn : p ++ np ++ [unit] <+: key.units)
    (hh : key.units[p.length + np.length]? = some unit)
    (hmi : la.getChild unit = none) :
    ∃ a, insertNode key value (f + 1) (some (.inner np la)) p.length = .ok a ∧
      Stored p a ∧ Adds key value (.inner np la) a := by
  obtain ⟨r, hl, hk, hr, hs⟩ : ∃ r, roomFor la = .ok r ∧ r.WellFormed ∧ r.isFull = false ∧
        ∀ unit, r.getChild unit = la.getChild unit := by
    by_cases hfu : la.isFull = true
    · obtain ⟨g, hd, hk, hr, hs⟩ := grow_spec hp.wellFormed hfu
      exact ⟨g, by rw [roomFor, if_pos hfu, hd]; rfl, hk, hr, hs⟩
    · exact ⟨la, if_neg hfu, hp.wellFormed, by simpa using hfu, fun _ => rfl⟩
  obtain ⟨u, hd, huf, hu⟩ := insertChild_spec hk unit (.leaf key value) fun _ => hr
  have huo : la.Updates u unit (.leaf key value) := fun o => by
    rw [hu, hs]
  obtain ⟨hst, hme⟩ := updated_spec hp huf huo (.leaf hn)
  refine ⟨.inner np u, ?_, hst, fun o hk => ?_⟩
  · simp only [insertNode, hc, bind, Except.bind, ne_eq, not_true_eq_false, if_false,
      unit_eq hh, hmi, hl, hd, checked]
  · have ha : ∀ ol, ¬ Member (.inner np la) key ol := by
      intro ol hm
      obtain ⟨c, hb, _⟩ := (member_child hp.children hn).mp hm
      rw [hmi] at hb
      cases hb
    rw [hme, or_comm, member_inner]
    refine or_congr ⟨?_, ?_⟩ ⟨?_, ?_⟩
    · rintro ⟨o, hb, _, hf, hm⟩
      exact ⟨o, hb, hf, hm⟩
    · rintro ⟨o, hb, hf, hm⟩
      refine ⟨o, hb, ?_, hf, hm⟩
      rintro rfl
      rw [hmi] at hf
      cases hf
    · rintro ⟨⟩
      exact ⟨rfl, rfl, ha⟩
    · rintro ⟨rfl, rfl, _⟩
      exact .leaf _ _

/-- **The descent** writes the changed child back. -/
theorem insertNode_descend {c b : Node width V} (hp : InnerParts p np la)
    (hc : prefixMatch key p.length np = .ok np.length)
    (hn : p ++ np ++ [unit] <+: key.units)
    (hh : key.units[p.length + np.length]? = some unit)
    (hf : la.getChild unit = some c)
    (hd : insertNode key value f (some c) (p.length + np.length + 1) = .ok b)
    (hbs : Stored (p ++ np ++ [unit]) b) (had : Adds key value c b) :
    ∃ a, insertNode key value (f + 1) (some (.inner np la)) p.length = .ok a ∧
      Stored p a ∧ Adds key value (.inner np la) a := by
  obtain ⟨u, hw, huf, hu⟩ :=
    insertChild_spec hp.wellFormed unit b fun ha => by rw [hf] at ha; cases ha
  obtain ⟨hst, hme⟩ := updated_spec hp huf hu hbs
  refine ⟨.inner np u, ?_, hst, fun o k => ?_⟩
  · simp only [insertNode, hc, bind, Except.bind, ne_eq, not_true_eq_false, if_false,
      unit_eq hh, hf, hd, hw, checked]
  · have hop : ∀ ol, Member (.inner np la) key ol ↔ Member c key ol := by
      intro ol
      rw [member_child hp.children hn]
      simp [hf]
    rw [hme, had, member_inner]
    simp only [hop]
    constructor
    · rintro ((hm | new) | ⟨o, b, _, ht, hm⟩)
      · exact inl ⟨unit, c, hf, hm⟩
      · exact inr new
      · exact inl ⟨o, b, ht, hm⟩
    · rintro (⟨o, b, ht, hm⟩ | new)
      · by_cases hs : o = unit
        · subst hs
          rw [hf] at ht
          cases ht
          exact inl (inl hm)
        · exact inr ⟨o, b, hs, ht, hm⟩
      · exact inl (inr new)

/-- **One insertion** keeps the invariant and every leaf, and adds the new one unless its key is
there. The depth grows at every inner node, so that `width + 1` nodes are enough. -/
theorem insertNode_spec (value : V) {n : Node width V} (hs : Stored p n)
    (hsp : p <+: key.units) (he : width < f + p.length) :
    ∃ a, insertNode key value f (some n) p.length = .ok a ∧ Stored p a ∧ Adds key value n a := by
  induction hs generalizing f with
  | leaf hs2 =>
    have hw := hsp.length_le
    rw [key.length] at hw
    obtain ⟨f, rfl⟩ : ∃ l, f = l + 1 := ⟨f - 1, by omega⟩
    exact insertNode_leaf f hsp hs2
  | @inner p np la hsh hwf hc hb ih =>
    obtain ⟨f, rfl⟩ : ∃ l, f = l + 1 := ⟨f - 1, by omega⟩
    have hp : InnerParts p np la := ⟨hsh, hwf, hc, hb⟩
    rcases walk_inner hsh hsp with
      ⟨_, _, _, hco, hag, ht, hh, ha⟩ | ⟨unit, hco, hh, hn⟩
    · exact insertNode_split f hp hco hag ht hh ha
    · cases hf : la.getChild unit with
      | none => exact insertNode_missing f hp hco hn hh hf
      | some c =>
        obtain ⟨b, hd, hbs, had⟩ := ih unit c hf hn
          (show width < f + _ by rw [deeper_length]; omega)
        rw [deeper_length] at hd
        exact insertNode_descend hp hco hn hh hf hd hbs had

end

/-! ### Lookup -/

section

variable {k : Key width} {v : V} {p : List KeyUnit} {n : Node width V}

/-- **A stored key is found**, with the value of its leaf. -/
theorem getByKey_member (hs : Stored p n) (hm : Member n k v)
    (he : width < f + p.length) : getByKey k f n p.length = .ok (some v) := by
  induction hs generalizing f with
  | @leaf p hs o hsp =>
    have hw := hsp.length_le
    rw [hs.length] at hw
    obtain ⟨f, rfl⟩ : ∃ l, f = l + 1 := ⟨f - 1, by omega⟩
    cases hm
    exact congrArg Except.ok (if_pos rfl)
  | @inner p np la hsh hwf hc hbr ih =>
    obtain ⟨f, rfl⟩ : ∃ l, f = l + 1 := ⟨f - 1, by omega⟩
    obtain ⟨unit, c, hf, hb⟩ := member_inner.mp hm
    have hn := (hc unit c hf).spelled hb
    have ha := (prefix_append _ _).trans hn
    have hh := (spelled_snoc ha).mp hn
    rw [length_append] at hh
    have hd : getByKey k f c (p ++ np ++ [unit]).length = .ok (some v) :=
      ih unit c hf hb (by rw [deeper_length]; omega)
    rw [deeper_length] at hd
    simp only [getByKey, prefixMatch_eq ha, bind, Except.bind, ne_eq, not_true_eq_false, if_false,
      unit_eq hh, hf, hd]

end

/-! ### Sequences of insertions -/

section

/-- The value of the first insertion of a key. -/
def firstValue (entries : List (Key width × V)) (key : Key width) : Option V :=
  (entries.find? fun entry => entry.1 = key).map Prod.snd

/-- What the invariant says of a whole tree that holds the first value of each key. -/
def Holds (root : Option (Node width V)) (entries : List (Key width × V)) : Prop :=
  match root with
  | none => entries = []
  | some node => Stored [] node ∧ ∀ key value, Member node key value ↔
      firstValue entries key = some value

theorem firstValue_snoc (es : List (Key width × V)) (e : Key width × V) (k : Key width) :
    firstValue (es ++ [e]) k = (firstValue es k).or (if e.1 = k then some e.2 else none) := by
  unfold firstValue
  rw [List.find?_append]
  cases es.find? fun e => e.1 = k with
  | some f => rfl
  | none =>
    by_cases hs : e.1 = k
    · simp [hs]
    · simp [hs]

theorem insert_holds {r : Option (Node width V)} {es : List (Key width × V)}
    (hh : Holds r es) (e : Key width × V) :
    ∃ a, insert r e = .ok a ∧ Holds a (es ++ [e]) := by
  obtain ⟨k, v⟩ := e
  cases r with
  | none =>
    obtain rfl : es = [] := hh
    refine ⟨some (.leaf k v), rfl, .leaf nil_prefix, fun o ke => ?_⟩
    rw [firstValue_snoc]
    constructor
    · rintro ⟨⟩
      simp [firstValue]
    · intro hf
      by_cases hs : k = o
      · subst hs
        simp only [firstValue, List.find?_nil, map_none, none_or, if_true] at hf
        cases hf
        exact .leaf _ _
      · simp [firstValue, hs] at hf
  | some n =>
    obtain ⟨hst, hm⟩ := hh
    have he := Nat.lt_succ_self width
    obtain ⟨a, hd, haf, had⟩ := insertNode_spec v hst ( nil_prefix : [] <+: k.units) he
    refine ⟨some a, ?_, haf, fun o ke => ?_⟩
    · rw [length_nil] at hd
      simp only [insert, hd, bind, Except.bind]
    · rw [had, firstValue_snoc, hm]
      simp only [hm]
      rcases eq_or_ne k o with rfl | ha
      · cases hf : firstValue es k with
        | some f => simp
        | none => simp [eq_comm]
      · simp [ha, ha.symm]

/-- **Every sequence of insertions** into the empty tree succeeds and leaves the first value of each
key. -/
theorem insertAll_spec (es : List (Key width × V)) : ∃ r, insertAll es = .ok r ∧ Holds r es := by
  induction es using List.reverseRecOn with
  | nil => exact ⟨none, rfl, rfl⟩
  | append_singleton es e ih =>
    obtain ⟨r, hd, hh⟩ := ih
    obtain ⟨a, hi, hah⟩ := insert_holds hh e
    refine ⟨a, ?_, hah⟩
    rw [insertAll] at hd ⊢
    rw [foldlM_append, hd]
    simp only [bind, Except.bind, foldlM_cons, foldlM_nil, hi, pure, Except.pure]

/-- **Lookup of stored keys.** Every sequence of insertions into the empty tree succeeds; the tree
holds exactly the first value of each inserted key, on the path that the key spells, with every
inner node deciding at a byte of the key; and each inserted key is found with its first value. -/
theorem find_first_inserted (entries : List (Key width × V)) :
    ∃ root, insertAll entries = .ok root ∧ (∀ node, root = some node → Stored [] node) ∧
      (∀ key value, (∃ node, root = some node ∧ Member node key value) ↔
        firstValue entries key = some value) ∧
      ∀ key value, firstValue entries key = some value → ∀ before,
          find root key before = .ok (true, value) := by
  obtain ⟨root, hd, hh⟩ := insertAll_spec entries
  refine ⟨root, hd, ?_⟩
  cases root with
  | none =>
    obtain rfl : entries = [] := hh
    simp [firstValue]
  | some node =>
    obtain ⟨hst, hm⟩ := hh
    refine ⟨fun o hs => ?_, fun key value => ?_, fun key value hfi before => ?_⟩
    · cases hs
      exact hst
    · rw [← hm]
      simp
    · have he := Nat.lt_succ_self width
      have hf := getByKey_member hst ((hm key value).mpr hfi) he
      rw [length_nil] at hf
      simp only [find, findImpl, hf, bind, Except.bind]

end

end Proteus.Oltp.Index
