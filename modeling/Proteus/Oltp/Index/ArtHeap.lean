/-
**The tree in memory** (`oltp/index/ART/art.hpp`).

The nodes in memory are a trie: an edge of an inner node is labelled with its prefix and the byte of
the child. The changes of an insertion replace a node by a new one above or beside it, or add a
child to it, and leave the places of all other nodes as they are.

* `HeapInv` — every node of the tree has one place, a leaf lies on the bytes of its key, and an
  inner node ends before the end of the keys.
* `Keeps` — what a change leaves to all nodes that are not locked for it.
* `publish_split`, `publish_grow`, `publish_branch`, `addChild_publishes`, `publish_root` — every
  change at the place it was planned for succeeds, keeps the invariant and adds the key.
-/

import Proteus.Library.Trie
import Proteus.Oltp.Index.ArtThreads

namespace Proteus.Oltp.Index

open Library List Option Function

variable {width : Nat} {V : Type}

def Cell.Edge (label : List KeyUnit) (child : Nat) : Cell width V → Prop
  | .leaf _ _ => False
  | .inner nodePrefix layout => ∃ unit, layout.getChild unit = some child ∧
      label = nodePrefix ++ [unit]

namespace Heap

/-- The trie of the nodes in memory. -/
def trie (heap : Heap width V) : Trie Nat KeyUnit where
  root := heap.root
  edge := fun node label child => ∃ cell, heap.cells node = some cell ∧ cell.Edge label child
  nonempty := by
    rintro _ _ _ ⟨_ | _, _, edge⟩
    · cases edge
    · obtain ⟨_, _, rfl⟩ := edge
      simp
  deterministic := by
    rintro _ _ _ _ _ _ ⟨cell, found, left⟩ ⟨_, found', right⟩ first second
    rw [found] at found'
    cases found'
    cases cell with
    | leaf => cases left
    | inner nodePrefix layout =>
      obtain ⟨unit, below, rfl⟩ := left
      obtain ⟨unit', below', rfl⟩ := right
      have same : nodePrefix ++ [unit] = nodePrefix ++ [unit'] :=
        (List.prefix_of_prefix_length_le first second (by simp)).eq_of_length (by simp)
      obtain rfl : unit = unit' := by simpa using same
      rw [below] at below'
      exact ⟨rfl, Option.some.inj below'⟩

variable {heap hp o : Heap width V} {node c : Nat} {l : List KeyUnit} {ce : Cell width V}

theorem edge_iff (hf : hp.cells node = some ce) : hp.trie.edge node l c ↔ ce.Edge l c := by
  refine ⟨?_, fun he => ⟨ce, hf, he⟩⟩
  rintro ⟨_, hf', he⟩
  rw [hf] at hf'
  cases hf'
  exact he

theorem edge_congr (hs : hp.cells node = o.cells node) :
    hp.trie.edge node l c ↔ o.trie.edge node l c := by
  simp only [trie, hs]

def view (heap : Heap width V) (node : Nat) : Option (Cell width V) × (List KeyUnit → Prop) :=
  (heap.cells node, fun path => heap.trie.At path node)

end Heap

/-! ### The invariant -/

def Cell.Good (path : List KeyUnit) : Cell width V → Prop
  | .leaf key _ => path <+: key.units
  | .inner nodePrefix layout => path.length + nodePrefix.length < width ∧ layout.WellFormed

structure HeapInv (heap : Heap width V) : Prop where
  allocated : ∀ node, (heap.cells node).isSome = true ↔ node < heap.next
  root : ∀ node, heap.root = some node → node < heap.next
  children : ∀ {node label child}, heap.trie.edge node label child → child < heap.next
  injective : heap.trie.Injective
  good : ∀ {path node cell}, heap.trie.At path node → heap.cells node = some cell → cell.Good path
  current : ∀ {path node}, heap.trie.At path node → isObsolete (heap.words node) = false
  unused : ∀ {node}, heap.next ≤ node → heap.words node = 4

/-- The key has a leaf in the tree. -/
def Present (heap : Heap width V) (key : Key width) : Prop :=
  ∃ path node value, heap.trie.At path node ∧ heap.cells node = some (.leaf key value)

variable {cell cl : Cell width V} {key : Key width} {node depth d : Nat}
    {nodePrefix np : List KeyUnit} {layout ly : Layout Nat}
    {other ot : Nat}

open Heap

namespace HeapInv

variable {h : Heap width V} {pa : List KeyUnit} {n : Nat}

theorem initial : HeapInv (initial : Heap width V) where
  allocated := fun n => ⟨nofun, fun low => absurd low (Nat.not_lt_zero _)⟩
  root := nofun
  children := by
    rintro _ _ _ ⟨_, hf, _⟩
    cases hf
  injective := by
    intro f s n hh
    obtain ⟨r, hf, _⟩ := hh.from_root
    cases hf
  good := by
    intro pa n cell hh
    obtain ⟨r, hf, _⟩ := hh.from_root
    cases hf
  current := by
    intro pa n hh
    obtain ⟨r, hf, _⟩ := hh.from_root
    cases hf
  unused := fun _ => rfl

theorem at_allocated (inv : HeapInv h) (hh : h.trie.At pa n) : n < h.next := by
  cases hh with
  | root hh => exact inv.root n hh
  | child _ he => exact inv.children he

theorem cell_of_lt (inv : HeapInv h) (low : n < h.next) : ∃ cell, h.cells n = some cell :=
  isSome_iff_exists.mp ((inv.allocated n).mpr low)

theorem lt_of_cell (inv : HeapInv h) (hf : h.cells n = some cl) : n < h.next :=
  (inv.allocated n).mp (by rw [hf]; rfl)

end HeapInv

structure Keeps (heap after : Heap width V) (Held : Nat → Prop) : Prop where
  next : heap.next ≤ after.next
  view : ∀ {node}, node < heap.next → ¬ Held node → after.view node = heap.view node
  leaf : ∀ {node key value}, heap.cells node = some (.leaf key value) →
    after.cells node = some (.leaf key value)
  inner : ∀ {node nodePrefix layout}, heap.cells node = some (.inner nodePrefix layout) →
    ∃ nodePrefix layout, after.cells node = some (.inner nodePrefix layout)
  linked : ∀ {path node}, node < heap.next → after.trie.At path node → ∃ path,
    heap.trie.At path node
  leaves : ∀ {path node key value}, heap.cells node = some (.leaf key value) →
    heap.trie.At path node →
    ∃ path, after.trie.At path node

theorem Keeps.present {h a : Heap width V} {Held : Nat → Prop} (hk : Keeps h a Held)
    (hp : Present h key) : Present a key := by
  obtain ⟨pa, node, v, hh, cell⟩ := hp
  obtain ⟨p, ht⟩ := hk.leaves cell hh
  exact ⟨p, node, v, ht, hk.leaf cell⟩

structure Publishes (heap after : Heap width V) (key : Key width) (Held : Nat → Prop) : Prop where
  inv : HeapInv after
  present : Present after key
  words : after.words = heap.words
  keeps : Keeps heap after Held

/-- What the writes do to the cells. -/
structure Rewrites (heap after : Heap width V) (node : Nat) (Held : Nat → Prop) : Prop where
  words : after.words = heap.words
  next : heap.next ≤ after.next
  allocated : ∀ other, (after.cells other).isSome = true ↔ other < after.next
  root : ∀ other, after.root = some other → other < after.next
  children : ∀ {other label child}, after.trie.edge other label child → child < after.next
  held : Held node
  same : ∀ {other}, other < heap.next → ¬ Held other → after.cells other = heap.cells other
  leaf : ∀ {other stored old}, heap.cells other = some (.leaf stored old) →
    after.cells other = some (.leaf stored old)
  inner : ∀ {other nodePrefix layout}, heap.cells other = some (.inner nodePrefix layout) →
    ∃ nodePrefix layout, after.cells other = some (.inner nodePrefix layout)
  good : ∀ {place other cell}, heap.trie.At place other → other ≠ node →
    after.cells other = some cell →
    cell.Good place

section

variable {h a : Heap width V} {k : Key width} {n top lf : Nat}
    {pa lp : List KeyUnit} {v : V}
  {Held : Nat → Prop} {e : List KeyUnit → Nat → Prop}

theorem grafted_inv (inv : HeapInv h) (hg : Trie.Graft h.trie a.trie n top pa e)
    (hr : Rewrites h a n Held)
    (ho : ∀ {f s other}, e f other → e s other → f = s)
    (new : ∀ {p other}, e p other → other = n ∨ h.next ≤ other)
    (hgo : ∀ {p other cell}, e p other → a.cells other = some cell → cell.Good p) :
    HeapInv a := by
  refine ⟨hr.allocated, hr.root, hr.children, ?_, ?_, ?_, ?_⟩
  · refine hg.injective_new ho fun ht hd hh => ?_
    have low := inv.at_allocated hh
    have hhi := (new ht).resolve_left hd
    omega
  · intro p other cell ht hf
    rcases hg.at_iff.mp ht with ⟨ht, hd⟩ | ht
    · exact hr.good ht hd hf
    · exact hgo ht hf
  · intro p other ht
    rw [hr.words]
    rcases hg.at_iff.mp ht with ⟨ht, _⟩ | ht
    · exact inv.current ht
    · rcases new ht with rfl | hhi
      · exact inv.current hg.here
      · rw [inv.unused hhi]
        rfl
  · intro other hhi
    rw [hr.words]
    exact inv.unused (hr.next.trans hhi)

theorem grafted_keeps (hg : Trie.Graft h.trie a.trie n top pa e) (hr : Rewrites h a n Held)
    (new : ∀ {p other}, e p other → other = n ∨ h.next ≤ other)
    (hst : ∀ {s o}, h.cells n = some (.leaf s o) → ∃ p, e p n) :
    Keeps h a Held := by
  refine ⟨hr.next, ?_, hr.leaf, hr.inner, ?_, ?_⟩
  · intro other low hfr
    have hd : other ≠ n := by
      rintro rfl
      exact hfr hr.held
    refine Prod.ext (hr.same low hfr) (funext fun p => propext ?_)
    refine hg.at_iff.trans ⟨?_, fun ht => .inl ⟨ht, hd⟩⟩
    rintro (⟨ht, _⟩ | ht)
    · exact ht
    · have := (new ht).resolve_left hd
      omega
  · intro p other low ht
    rcases hg.at_iff.mp ht with ⟨ht, _⟩ | ht
    · exact ⟨p, ht⟩
    · rcases new ht with rfl | hh
      · exact ⟨pa, hg.here⟩
      · omega
  · intro p other s o hf ht
    by_cases hs : other = n
    · subst hs
      obtain ⟨p, e⟩ := hst hf
      exact ⟨p, hg.at_iff.mpr (.inr e)⟩
    · exact ⟨p, hg.at_iff.mpr (.inl ⟨ht, hs⟩)⟩

/-- **A graft with the key at a new leaf** publishes the key. -/
theorem grafted_publishes (inv : HeapInv h) (hg : Trie.Graft h.trie a.trie n top pa e)
    (hr : Rewrites h a n Held)
    (ho : ∀ {f s other}, e f other → e s other → f = s)
    (new : ∀ {p other}, e p other → other = n ∨ h.next ≤ other)
    (hgo : ∀ {p other cell}, e p other → a.cells other = some cell → cell.Good p)
    (hs : ∀ {st o}, h.cells n = some (.leaf st o) → ∃ p, e p n)
    (ha : e lp lf) (hf : a.cells lf = some (.leaf k v)) :
    Publishes h a k Held :=
  ⟨grafted_inv inv hg hr ho new hgo, ⟨lp, lf, v, hg.at_iff.mpr (.inr ha), hf⟩, hr.words,
    grafted_keeps hg hr new hs⟩

end

/-! ### Behind a prefix -/

theorem unit_behind {h : Heap width V} (inv : HeapInv h) {s : Nat}
    {p : List KeyUnit} (hh : h.trie.At p node)
    (hsp : p <+: key.units) (hse : p.length = s)
    (cl : h.cells node = some (.inner np ly))
    (hf : ∀ len, prefixMatch key s np = .ok len → len = np.length ∧ d = s + np.length) :
    ∃ u, key.units[d]? = some u ∧ d = p.length + np.length ∧ p ++ (np ++ [u]) <+: key.units := by
  obtain ⟨hs, _⟩ := inv.good hh cl
  obtain ⟨len, hc, ha, _⟩ := prefixMatch_spec np hsp hs.le
  rw [hse] at hc
  obtain ⟨rfl, rfl⟩ := hf len hc
  rw [take_length] at ha
  obtain ⟨u, hue⟩ := key.exists_unit (p ++ np).length (by rw [length_append]; exact hs)
  refine ⟨u, ?_, by rw [hse], ?_⟩
  · rw [← hse, ← length_append]
    exact hue
  · rw [← append_assoc, spelled_snoc ha]
    exact hue

open Layout

/-! ### Layouts with two children -/

theorem Layout.pair_spec (f s : KeyUnit) (l r : Nat) :
    ∃ layout, pair f l s r = some layout ∧ layout.WellFormed ∧
      ∀ u, layout.getChild u = if u = s then some r else if u = f then some l
        else none := by
  obtain ⟨one, hd, hwf, hu⟩ := insertChild_spec (C := Nat) createNode4_wellFormed f l fun _ => rfl
  have hr := createNode4_insertChild_isFull hd
  obtain ⟨two, hd', hwf', hu'⟩ := insertChild_spec hwf s r fun _ => hr
  refine ⟨two, by rw [pair, hd, bind_some, hd'], hwf', fun u => ?_⟩
  rw [hu' u, hu u, createNode4_getChild]

/-! ### A new node in the place of an old one -/

section

variable {heap : Heap width V} {key : Key width} {value : V} {frame : Frame} {path : List KeyUnit}

/-- The node of a frame is the root or the child of its parent, on the bytes of the key. -/
structure Placed (heap : Heap width V) (key : Key width) (frame : Frame) (path : List KeyUnit) :
    Prop where
  root : frame.parent = none → heap.root = some frame.node ∧ path = []
  child : ∀ {parent version}, frame.parent = some (parent, version) →
    ∃ place nodePrefix layout unit,
    heap.trie.At place parent ∧ heap.cells parent = some (.inner nodePrefix layout) ∧
      layout.getChild unit = some frame.node ∧ path = place ++ (nodePrefix ++ [unit])
  spelled : path <+: key.units
  depth : path.length = frame.depth

theorem Placed.here (hpl : Placed heap key frame path) : heap.trie.At path frame.node := by
  cases hp : frame.parent with
  | none =>
    obtain ⟨hr, rfl⟩ := hpl.root hp
    exact .root hr
  | some hp =>
    obtain ⟨p, nodePrefix, layout, u, ha, cell, hb, rfl⟩ := hpl.child hp
    exact ha.child ((edge_iff cell).mpr ⟨u, hb, rfl⟩)

/-- What `link` writes. -/
structure Relinked (heap base after : Heap width V) (frame : Frame) (top : Nat) : Prop where
  words : after.words = base.words
  next : after.next = base.next
  other : ∀ {node}, frame.parent.map Prod.fst ≠ some node → after.cells node = base.cells node
  parent : ∀ {parent}, frame.parent.map Prod.fst = some parent → parent < heap.next ∧
    parent ≠ frame.node ∧
    ∃ nodePrefix layout updated, heap.cells parent = some (.inner nodePrefix layout) ∧
      after.cells parent = some (.inner nodePrefix updated) ∧ updated.WellFormed ∧
      ∀ {unit child}, updated.getChild unit = some child → child = top ∨
        layout.getChild unit = some child
  replaces : Trie.Replaces heap.trie after.trie frame.node top

/-- **One pointer is written**, to the root or to the parent, and replaces the node. -/
theorem link_spec (inv : HeapInv heap) (hp : Placed heap key frame path) (b : Heap width V)
    (hr : b.root = heap.root)
    (hs : ∀ {node}, node < heap.next → node ≠ frame.node → b.cells node = heap.cells node)
    (top : Nat) :
    ∃ a, b.link key frame top = some a ∧ Relinked heap b a frame top := by
  cases hpe : frame.parent with
  | none =>
    obtain ⟨hh, _⟩ := hp.root hpe
    refine ⟨{ b with root := some top }, by rw [link, hpe], rfl, rfl, fun _ => rfl, ?_, ?_⟩
    · rw [hpe]
      nofun
    · exact Trie.replaces_root inv.injective hh rfl fun ht hdi =>
        edge_congr (hs (inv.at_allocated ht) hdi)
  | some s =>
    obtain ⟨pa, v⟩ := s
    obtain ⟨p, nodePrefix, layout, u, hab, cell, hb, hpa⟩ := hp.child hpe
    have he := (edge_iff cell).mpr ⟨u, hb, rfl⟩
    have ha : pa ≠ frame.node := by
      intro hs
      have hh := hp.here
      rw [← hs] at hh
      have hlo := inv.injective hab hh
      rw [hpa, self_eq_append_right] at hlo
      exact heap.trie.nonempty he hlo
    have low := inv.at_allocated hab
    have hbc := (hs low ha).trans cell
    have hue : key.units[frame.depth - 1]? = some u := by
      have hsp := hp.spelled
      rw [hpa, ← append_assoc] at hsp
      have hf := (spelled_snoc ((prefix_append _ _).trans hsp)).mp hsp
      rwa [← hp.depth, hpa, show (p ++ (nodePrefix ++ [u])).length - 1 = (p ++ nodePrefix).length by
        simp]
    obtain ⟨_, hwf⟩ := inv.good hab cell
    obtain ⟨up, hd, hk, hu⟩ := insertChild_spec hwf u top fun hn => by
      rw [hb] at hn
      cases hn
    have hw : (b.write pa (.inner nodePrefix up)).cells pa = some (.inner nodePrefix up) :=
      update_self ..
    refine ⟨b.write pa (.inner nodePrefix up), ?_, rfl, rfl, ?_, ?_, ?_⟩
    · simp only [link, hpe, hbc, hue, hd, map_some]
    · intro node hdi
      rw [hpe, map_some, ne_eq, Option.some.injEq] at hdi
      exact update_of_ne (Ne.symm hdi) ..
    · intro hf
      rw [hpe, map_some, Option.some.injEq]
      rintro rfl
      refine ⟨low, ha, nodePrefix, layout, up, cell, hw, hk, fun {u' c} ht => ?_⟩
      rw [hu] at ht
      split at ht
      · exact .inl (some.inj ht).symm
      · exact .inr ht
    · refine Trie.replaces_child inv.injective hab he hr ?_ ?_ ?_
      · intro c
        rw [edge_iff hw]
        refine ⟨?_, fun hf => ⟨u, by rw [hu, if_pos rfl, hf], rfl⟩⟩
        rintro ⟨u', ht, hl⟩
        obtain rfl : u = u' := by simpa using hl
        rw [hu, if_pos rfl] at ht
        exact (some.inj ht).symm
      · intro hl c other
        rw [edge_iff hw, edge_iff cell]
        have hua : ∀ {u'}, hl = nodePrefix ++ [u'] → u' ≠ u := by
          rintro _ rfl rfl
          exact other rfl
        refine exists_congr fun u' => and_congr_left fun hl => ?_
        rw [hu, if_neg (hua hl)]
      · intro _ node hl c ht hdi hnp
        refine edge_congr ?_
        exact (update_of_ne hnp ..).trans (hs (inv.at_allocated ht) hdi)

def Heap.hung (heap : Heap width V) (key : Key width) (value : V) (node : Nat)
    (topPrefix : List KeyUnit)
    (topLayout : Layout Nat) (nodeCell : Cell width V) : Heap width V :=
  ((heap.alloc (.leaf key value)).alloc (.inner topPrefix topLayout)).write node nodeCell

section

variable {n : Nat} {tp : List KeyUnit} {tl : Layout Nat} {nc : Cell width V}

theorem Heap.hung_node : (heap.hung key value n tp tl nc).cells n = some nc :=
  update_self ..

theorem Heap.hung_top (low : n < heap.next) :
    (heap.hung key value n tp tl nc).cells (heap.next + 1) = some (.inner tp tl) :=
  (update_of_ne (by omega) ..).trans (update_self ..)

theorem Heap.hung_leaf (low : n < heap.next) :
    (heap.hung key value n tp tl nc).cells heap.next = some (.leaf key value) :=
  (update_of_ne (by omega) ..).trans
    ((update_of_ne (show heap.next ≠ heap.next + 1 by omega) ..).trans (update_self ..))

theorem Heap.hung_other (hnn : ot ≠ n) (hnl : ot ≠ heap.next) (hnt : ot ≠ heap.next + 1) :
    (heap.hung key value n tp tl nc).cells ot = heap.cells ot :=
  (update_of_ne hnn ..).trans ((update_of_ne hnt ..).trans (update_of_ne hnl ..))

end

structure Plan (heap : Heap width V) (key : Key width) (frame : Frame) (path : List KeyUnit)
    (leafUnit : KeyUnit) (topPrefix : List KeyUnit) (topLayout : Layout Nat)
    (nodeCell : Cell width V)
    (moved : Option (List KeyUnit)) :
    Prop where
  short : path.length + topPrefix.length < width
  wellFormed : topLayout.WellFormed
  leaf : topLayout.getChild leafUnit = some heap.next
  spelled : path ++ (topPrefix ++ [leafUnit]) <+: key.units
  node : ∀ {place}, moved = some place → nodeCell.Good place ∧
    ∃ unit, topLayout.getChild unit = some frame.node ∧ place = path ++ (topPrefix ++ [unit])
  edges : ∀ {unit child}, topLayout.getChild unit = some child → unit = leafUnit ∧
    child = heap.next ∨
    child = frame.node ∧ moved = some (path ++ (topPrefix ++ [unit])) ∨
    heap.trie.edge frame.node (topPrefix ++ [unit]) child
  nodeEdges : ∀ {place label child}, moved = some place → nodeCell.Edge label child →
    ∃ before, place ++ label = path ++ before ∧ heap.trie.edge frame.node before child
  below : ∀ {label child}, heap.trie.edge frame.node label child →
    (∃ unit, topLayout.getChild unit = some child ∧ label = topPrefix ++ [unit]) ∨
    ∃ place rest, moved = some place ∧ nodeCell.Edge rest child ∧ place ++ rest = path ++ label
  children : ∀ {label child}, nodeCell.Edge label child → child < heap.next
  leafKept : ∀ {stored old}, heap.cells frame.node = some (.leaf stored old) →
    nodeCell = .leaf stored old ∧ ∃ place, moved = some place
  innerKept : ∀ {nodePrefix layout}, heap.cells frame.node = some (.inner nodePrefix layout) →
    ∃ nodePrefix layout, nodeCell = .inner nodePrefix layout

def Extra (heap : Heap width V) (frame : Frame) (path leafPath : List KeyUnit)
    (moved : Option (List KeyUnit))
    (place : List KeyUnit) (node : Nat) : Prop :=
  place = path ∧ node = heap.next + 1 ∨ place = leafPath ∧ node = heap.next ∨ moved = some place ∧
    node = frame.node

open Prod

section

variable {lu : KeyUnit} {topPrefix : List KeyUnit} {topLayout : Layout Nat}
    {nodeCell : Cell width V}
  {m : Option (List KeyUnit)} {after : Heap width V}

/-- The cells after a plan was carried out. -/
structure Carried (heap after : Heap width V) (key : Key width) (value : V) (frame : Frame)
    (topPrefix : List KeyUnit) (topLayout : Layout Nat) (nodeCell : Cell width V) : Prop where
  relinked : Relinked heap (heap.hung key value frame.node topPrefix topLayout nodeCell) after frame
    (heap.next + 1)
  node : after.cells frame.node = some nodeCell
  top : after.cells (heap.next + 1) = some (.inner topPrefix topLayout)
  leaf : after.cells heap.next = some (.leaf key value)
  other : ∀ {node}, node ≠ frame.node → node ≠ heap.next → node ≠ heap.next + 1 →
    frame.parent.map Prod.fst ≠ some node → after.cells node = heap.cells node

theorem carried (inv : HeapInv heap) (hpl : Placed heap key frame path) (value : V)
    (topPrefix : List KeyUnit) (topLayout : Layout Nat) (nodeCell : Cell width V) : ∃ after,
    (heap.hung key value frame.node topPrefix topLayout nodeCell).link key frame (heap.next + 1) =
    some after ∧ Carried heap after key value frame topPrefix topLayout nodeCell := by
  have low := inv.at_allocated hpl.here
  obtain ⟨after, hd, hr⟩ := link_spec inv hpl
    (heap.hung key value frame.node topPrefix topLayout nodeCell) rfl
    (fun hb hdi => hung_other hdi (by omega) (by omega)) (heap.next + 1)
  have hnp : ∀ {node}, heap.next ≤ node ∨ node = frame.node → frame.parent.map fst ≠ some node := by
    intro node haw hf
    obtain ⟨hb, ha, _⟩ := hr.parent hf
    rcases haw with hh | hs
    · omega
    · exact ha hs
  refine ⟨after, hd, hr, ?_, ?_, ?_, fun hnn hnl hnt hp => ?_⟩
  · rw [hr.other (hnp (.inr rfl)), hung_node]
  · rw [hr.other (hnp (.inl (by omega))), hung_top low]
  · rw [hr.other (hnp (.inl le_rfl)), hung_leaf low]
  · rw [hr.other hp, hung_other hnn hnl hnt]

theorem Plan.graft (hpl : Plan heap key frame path lu topPrefix topLayout nodeCell m)
    (inv : HeapInv heap) (hp : Placed heap key frame path)
    (hc : Carried heap after key value frame topPrefix topLayout nodeCell) :
    Trie.Graft heap.trie after.trie frame.node (heap.next + 1) path
      (Extra heap frame path (path ++ (topPrefix ++ [lu])) m) := by
  have het : ∀ {u c}, topLayout.getChild u = some c →
      after.trie.edge (heap.next + 1) (topPrefix ++ [u]) c := fun hb =>
    (edge_iff hc.top).mpr ⟨_, hb, rfl⟩
  have hrn : ∀ {p}, m = some p → after.trie.At path (heap.next + 1) →
      after.trie.At p frame.node := by
    intro p him top
    obtain ⟨_, u, hb, rfl⟩ := hpl.node him
    exact top.child (het hb)
  refine ⟨inv.injective, hp.here, hc.relinked.replaces, .inl ⟨rfl, rfl⟩, ?_, ?_, ?_⟩
  · rintro p node (⟨rfl, rfl⟩ | ⟨rfl, rfl⟩ | ⟨him, rfl⟩) top
    · exact top
    · exact top.child (het hpl.leaf)
    · exact hrn him top
  · intro l c he top
    rcases hpl.below he with ⟨u, hb, rfl⟩ | ⟨p, tl, him, he, hs⟩
    · exact top.child (het hb)
    · rw [← hs]
      exact (hrn him top).child ((edge_iff hc.node).mpr he)
  · rintro p node l c (⟨rfl, rfl⟩ | ⟨rfl, rfl⟩ | ⟨him, rfl⟩) he
    · obtain ⟨u, hb, rfl⟩ := (edge_iff hc.top).mp he
      rcases hpl.edges hb with ⟨rfl, rfl⟩ | ⟨rfl, him⟩ | he
      · exact .inl (.inr (.inl ⟨rfl, rfl⟩))
      · exact .inl (.inr (.inr ⟨him, rfl⟩))
      · exact .inr ⟨_, rfl, he⟩
    · cases (edge_iff hc.leaf).mp he
    · exact .inr (hpl.nodeEdges him ((edge_iff hc.node).mp he))

section

variable (carried : Carried heap after key value frame topPrefix topLayout nodeCell)

include carried

theorem Carried.cases (node : Nat) :
    node = heap.next ∨ node = heap.next + 1 ∨ node = frame.node ∨ frame.parent.map fst = some node ∨
      (node ≠ heap.next ∧ node ≠ heap.next + 1) ∧ after.cells node = heap.cells node := by
  by_cases hl : node = heap.next
  · exact .inl hl
  by_cases top : node = heap.next + 1
  · exact .inr (.inl top)
  by_cases hh : node = frame.node
  · exact .inr (.inr (.inl hh))
  by_cases hp : frame.parent.map fst = some node
  · exact .inr (.inr (.inr (.inl hp)))
  · exact .inr (.inr (.inr (.inr ⟨⟨hl, top⟩, carried.other hh hl top hp⟩)))

theorem Carried.next_eq : after.next = heap.next + 2 :=
  carried.relinked.next

theorem Carried.words_eq : after.words = heap.words :=
  carried.relinked.words

theorem Carried.allocated (inv : HeapInv heap) (low : frame.node < heap.next) (node : Nat) :
    (after.cells node).isSome = true ↔ node < after.next := by
  rw [carried.next_eq]
  rcases carried.cases node with rfl | rfl | rfl | hp | ⟨hd, hs⟩
  · rw [carried.leaf]
    exact iff_of_true rfl (by omega)
  · rw [carried.top]
    exact iff_of_true rfl (by omega)
  · rw [carried.node]
    exact iff_of_true rfl (by omega)
  · obtain ⟨hb, _, _, _, _, _, hf, _⟩ := carried.relinked.parent hp
    rw [hf]
    exact iff_of_true rfl (by omega)
  · rw [hs, inv.allocated]
    omega

end

theorem Plan.children_lt (hpl : Plan heap key frame path lu topPrefix topLayout nodeCell m)
    (inv : HeapInv heap) (low : frame.node < heap.next)
    (hca : Carried heap after key value frame topPrefix topLayout nodeCell) {c : Nat}
    {l : List KeyUnit} (he : after.trie.edge node l c) : c < after.next := by
  rw [hca.next_eq]
  rcases hca.cases node with rfl | rfl | rfl | hp | ⟨_, hs⟩
  · cases (edge_iff hca.leaf).mp he
  · obtain ⟨u, hb, rfl⟩ := (edge_iff hca.top).mp he
    rcases hpl.edges hb with ⟨_, rfl⟩ | ⟨rfl, _⟩ | he
    · omega
    · omega
    · have := inv.children he
      omega
  · have := hpl.children ((edge_iff hca.node).mp he)
    omega
  · obtain ⟨_, _, nodePrefix, layout, up, hf, hw, _, hc⟩ := hca.relinked.parent hp
    obtain ⟨u, hb, rfl⟩ := (edge_iff hw).mp he
    rcases hc hb with rfl | hb
    · omega
    · have := inv.children ((edge_iff hf).mpr ⟨u, hb, rfl⟩)
      omega
  · have := inv.children ((edge_congr hs).mp he)
    omega

theorem Carried.root_lt (hc : Carried heap after key value frame topPrefix topLayout nodeCell)
    (inv : HeapInv heap) (hf : after.root = some node) : node < after.next := by
  have hre : after.root = heap.root.map _ := hc.relinked.replaces.root
  rw [hf] at hre
  obtain ⟨b, hr, rfl⟩ := map_eq_some_iff.mp hre.symm
  rw [hc.next_eq]
  have := inv.root b hr
  by_cases hs : b = frame.node
  · rw [hs, Trie.exchange_self]
    omega
  · rw [Trie.exchange_of_ne hs]
    omega

variable (plan : Plan heap key frame path lu topPrefix topLayout nodeCell m) (inv : HeapInv heap)

include plan inv

theorem Plan.rewrites (low : frame.node < heap.next)
    (hc : Carried heap after key value frame topPrefix topLayout nodeCell) :
    Rewrites heap after frame.node fun node => node = frame.node ∨
        frame.parent.map fst = some node := by
  refine ⟨hc.words_eq, by rw [hc.next_eq]; omega, hc.allocated inv low,
    fun _ => hc.root_lt inv, plan.children_lt inv low hc, .inl rfl, ?_, ?_, ?_, ?_⟩
  · intro node hbe hfr
    obtain ⟨hd, hnp⟩ := not_or.mp hfr
    exact hc.other hd (by omega) (by omega) hnp
  · intro node s o hf
    have hbe := inv.lt_of_cell hf
    rcases hc.cases node with rfl | rfl | rfl | hp | ⟨_, hs⟩
    · omega
    · omega
    · rw [hc.node, (plan.leafKept hf).1]
    · obtain ⟨_, _, _, _, _, hb, _⟩ := hc.relinked.parent hp
      rw [hf] at hb
      cases hb
    · rw [hs, hf]
  · intro node nodePrefix layout hf
    have hbe := inv.lt_of_cell hf
    rcases hc.cases node with rfl | rfl | rfl | hp | ⟨_, hs⟩
    · omega
    · omega
    · obtain ⟨nodePrefix, layout, rfl⟩ := plan.innerKept hf
      exact ⟨nodePrefix, layout, hc.node⟩
    · obtain ⟨_, _, nodePrefix, _, u, _, hw, _⟩ := hc.relinked.parent hp
      exact ⟨nodePrefix, u, hw⟩
    · exact ⟨nodePrefix, layout, hs.trans hf⟩
  · intro p node cell ht hd hf
    have hbe := inv.at_allocated ht
    rcases hc.cases node with rfl | rfl | rfl | hp | ⟨_, hs⟩
    · omega
    · omega
    · exact absurd rfl hd
    · obtain ⟨_, _, nodePrefix, layout, u, hb, hw, hwf, _⟩ := hc.relinked.parent hp
      rw [hw] at hf
      cases hf
      exact ⟨(inv.good ht hb).1, hwf⟩
    · exact inv.good ht (hs ▸ hf)

/-- **Every plan can be carried out**, and keeps the tree. -/
theorem Plan.hangs (hp : Placed heap key frame path) (value : V) : ∃ after,
      (heap.hung key value frame.node topPrefix topLayout nodeCell).link key frame (heap.next + 1) =
        some after ∧
      Publishes heap after key (fun node => node = frame.node ∨ frame.parent.map fst = some node) ∧
      ∀ p, after.trie.At p frame.node ↔ m = some p := by
  obtain ⟨after, hd, carried⟩ := carried inv hp value topPrefix topLayout nodeCell
  have low := inv.at_allocated hp.here
  have hg := plan.graft inv hp carried
  refine ⟨after, hd, ?_, fun p => hg.at_iff.trans ⟨?_, fun him => .inr (.inr (.inr ⟨him, rfl⟩))⟩⟩
  · refine grafted_publishes inv hg (plan.rewrites inv low carried) ?_ ?_ ?_ ?_
      (.inr (.inl ⟨rfl, rfl⟩)) carried.leaf
    · rintro f s node (⟨rfl, rfl⟩ | ⟨rfl, rfl⟩ | ⟨hl, rfl⟩) (⟨rfl, hs⟩ | ⟨rfl, hs⟩ | ⟨hr, hs⟩)
      · rfl
      · omega
      · omega
      · omega
      · rfl
      · omega
      · omega
      · omega
      · exact some.inj (hl.symm.trans hr)
    · rintro p node (⟨_, rfl⟩ | ⟨_, rfl⟩ | ⟨_, rfl⟩)
      · exact .inr (by omega)
      · exact .inr le_rfl
      · exact .inl rfl
    · rintro p node cell (⟨rfl, rfl⟩ | ⟨rfl, rfl⟩ | ⟨him, rfl⟩) hf
      · rw [carried.top] at hf
        cases hf
        exact ⟨plan.short, plan.wellFormed⟩
      · rw [carried.leaf] at hf
        cases hf
        exact plan.spelled
      · rw [carried.node] at hf
        cases hf
        exact (plan.node him).1
    · intro st o hf
      obtain ⟨_, p, him⟩ := plan.leafKept hf
      exact ⟨p, .inr (.inr ⟨him, rfl⟩)⟩
  · rintro (⟨_, hdi⟩ | ⟨_, hs⟩ | ⟨_, hs⟩ | ⟨him, _⟩)
    · exact absurd rfl hdi
    · omega
    · omega
    · exact him

end

/-! ### The changes -/

theorem Heap.hung_same {tp : List KeyUnit} {tl : Layout Nat}
    (hf : heap.cells node = some cl) (low : node < heap.next) :
    heap.hung key value node tp tl cl = (heap.alloc (.leaf key value)).alloc (.inner tp tl) := by
  have hu : ((heap.alloc (.leaf key value)).alloc (.inner tp tl)).cells node = some cl :=
    (update_of_ne (show node ≠ heap.next + 1 by omega) ..).trans
      ((update_of_ne (show node ≠ heap.next by omega) ..).trans hf)
  rw [hung, write, ← hu, update_eq_self]

variable (inv : HeapInv heap) (placed : Placed heap key frame path) (v : V)

include inv placed

/-- **A mismatch in the prefix** puts a new node above the old one. -/
theorem publish_split (cl : heap.cells frame.node = some (.inner np ly))
    {m : Nat} (hf : ∀ len, prefixMatch key frame.depth np = .ok len → len = m ∧ len ≠ np.length) :
    ∃ a, heap.publish key v frame (.split m) = some a ∧
      Publishes heap a key fun node => node = frame.node ∨ frame.parent.map fst = some node := by
  obtain ⟨hsh, hwf⟩ := inv.good placed.here cl
  obtain ⟨len, hco, hag, hp⟩ := prefixMatch_spec np placed.spelled hsh.le
  rw [placed.depth] at hco
  obtain ⟨rfl, hdi⟩ := hf len hco
  obtain ⟨e, u, hee, hue, ha⟩ := hp.resolve_left hdi
  obtain ⟨hl, hhe⟩ := List.getElem?_eq_some_iff.mp hee
  have hw : np = np.take len ++ (e :: np.drop (len + 1)) := by
    rw [← hhe, getElem_cons_drop, take_append_drop]
  have ht := length_take_of_le hl.le
  obtain ⟨pa, hpa, hpf, hc⟩ := pair_spec u e heap.next frame.node
  have hpl : Plan heap key frame path u (np.take len) pa (.inner (np.drop (len + 1)) ly)
      (some (path ++ (np.take len ++ [e]))) := by
    have hm : ∀ u, path ++ (np.take len ++ [e]) ++ (np.drop (len + 1) ++ [u]) =
        path ++ (np ++ [u]) := by
      intro u
      conv_rhs => rw [hw]
      simp
    refine ⟨by omega, hpf, ?_, ?_, ?_, ?_, ?_, ?_, ?_, ?_, fun _ => ⟨_, _, rfl⟩⟩
    · rw [hc, if_neg ha, if_pos rfl]
    · rw [← append_assoc, spelled_snoc hag, length_append, ht]
      exact hue
    · rintro p ⟨⟩
      refine ⟨⟨?_, hwf⟩, e, by rw [hc, if_pos rfl], rfl⟩
      simp only [length_append, length_drop, ht, length_singleton]
      omega
    · intro u' c hb
      rw [hc] at hb
      split at hb
      · next hs =>
        cases hb
        exact .inr (.inl ⟨rfl, by rw [hs]⟩)
      · split at hb
        · next hs =>
          cases hb
          exact .inl ⟨hs, rfl⟩
        · cases hb
    · rintro p l c ⟨⟩ ⟨u', hb, rfl⟩
      exact ⟨_, hm u', (edge_iff cl).mpr ⟨u', hb, rfl⟩⟩
    · intro l c he
      obtain ⟨u', hb, rfl⟩ := (edge_iff cl).mp he
      exact .inr ⟨_, _, rfl, ⟨u', hb, rfl⟩, hm u'⟩
    · rintro l c ⟨u', hb, rfl⟩
      exact inv.children ((edge_iff cl).mpr ⟨u', hb, rfl⟩)
    · intro s o hle
      rw [cl] at hle
      cases hle
  obtain ⟨a, hd, hpu, _⟩ := hpl.hangs inv placed v
  refine ⟨a, ?_, hpu⟩
  rw [placed.depth] at hue
  simp only [publish, cl, hue, hee, hpa, bind_eq_bind, bind_some]
  exact hd

/-- **A full node without the child** is replaced by a larger one. -/
theorem publish_grow (cl : heap.cells frame.node = some (.inner np ly))
    (hf : ∀ len, prefixMatch key frame.depth np = .ok len →
      len = np.length ∧ d = frame.depth + np.length)
    (hab : ∀ u, key.units[d]? = some u → ly.getChild u = none)
    (hfu : ly.isFull = true) :
    ∃ a, heap.publish key v frame (.grow d) = some a ∧
      Publishes heap a key (fun node => node = frame.node ∨ frame.parent.map fst = some node) ∧
      ∀ p, ¬ a.trie.At p frame.node := by
  obtain ⟨hsh, hwf⟩ := inv.good placed.here cl
  obtain ⟨u, huh, _, hsp⟩ := unit_behind inv placed.here placed.spelled placed.depth cl hf
  have hmi := hab u huh
  obtain ⟨g, hg, hgf, hr, hs⟩ := grow_spec hwf hfu
  obtain ⟨up, hd, huf, hu⟩ := insertChild_spec hgf u heap.next fun _ => hr
  have low := inv.at_allocated placed.here
  have hpl : Plan heap key frame path u np up (.inner np ly) none := by
    refine ⟨hsh, huf, by rw [hu, if_pos rfl], hsp, nofun, ?_, nofun, ?_, ?_, ?_,
      fun _ => ⟨_, _, rfl⟩⟩
    · intro u' c hb
      rw [hu] at hb
      split at hb
      · next hh =>
        cases hb
        exact .inl ⟨hh, rfl⟩
      · rw [hs] at hb
        exact .inr (.inr ((edge_iff cl).mpr ⟨u', hb, rfl⟩))
    · intro l c he
      obtain ⟨u', hb, rfl⟩ := (edge_iff cl).mp he
      have ha : u' ≠ u := by
        rintro rfl
        rw [hmi] at hb
        cases hb
      exact .inl ⟨u', by rw [hu, if_neg ha, hs, hb], rfl⟩
    · intro l c he
      exact inv.children ((edge_iff cl).mpr he)
    · intro s o hl
      rw [cl] at hl
      cases hl
  obtain ⟨a, hli, hp, hm⟩ := hpl.hangs inv placed v
  refine ⟨a, ?_, hp, fun p ht => nomatch (hm p).mp ht⟩
  rw [hung_same cl low] at hli
  simp only [publish, cl, huh, hg, hd, bind_eq_bind, bind_some]
  exact hli

/-- **A leaf with another key** gets a node above it that parts the two. -/
theorem publish_branch {k : Key width} {o : V} (cl : heap.cells frame.node = some (.leaf k o))
    (hp : ¬ width ≤ frame.depth + sharedFrom k key (width - frame.depth) frame.depth) :
    ∃ a, heap.publish key v frame .branch = some a ∧
      Publishes heap a key fun node => node = frame.node ∨ frame.parent.map fst = some node := by
  have low := inv.at_allocated placed.here
  have hsp : path <+: k.units := inv.good placed.here cl
  have hdl : path.length + (width - path.length) = width := by
    have := placed.spelled.length_le
    rw [key.length] at this
    omega
  obtain ⟨hag, ha2, hsl, hen⟩ := sharedFrom_spec (width - path.length) placed.spelled hsp hdl
  rw [placed.depth] at hag ha2 hsl hen
  generalize hln : sharedFrom k key (width - frame.depth) frame.depth = len at *
  obtain ⟨u, un, hue, hu, ha⟩ := hen.resolve_left (by omega)
  obtain ⟨pa, hpa, hpf, hc⟩ := pair_spec un u frame.node heap.next
  have hl : (path ++ key.slice frame.depth len).length = frame.depth + len := by
    rw [length_append, hsl, placed.depth]
  have hpl : Plan heap key frame path u (key.slice frame.depth len) pa (.leaf k o)
      (some (path ++ (key.slice frame.depth len ++ [un]))) := by
    refine ⟨by rw [hsl, placed.depth]; omega, hpf, by rw [hc, if_pos rfl], ?_, ?_, ?_, ?_,
      ?_, nofun, ?_, ?_⟩
    · rw [← append_assoc, spelled_snoc hag, hl]
      exact hue
    · rintro p ⟨⟩
      refine ⟨?_, un, by rw [hc, if_neg ha.symm, if_pos rfl], rfl⟩
      show _ <+: k.units
      rw [← append_assoc, spelled_snoc ha2, hl]
      exact hu
    · intro u' c hb
      rw [hc] at hb
      split at hb
      · next hs =>
        cases hb
        exact .inl ⟨hs, rfl⟩
      · split at hb
        · next hs =>
          cases hb
          exact .inr (.inl ⟨rfl, by rw [hs]⟩)
        · cases hb
    · rintro p l c _ ⟨⟩
    · intro l c he
      cases (edge_iff cl).mp he
    · intro s v hle
      rw [cl] at hle
      cases hle
      exact ⟨rfl, _, rfl⟩
    · intro nodePrefix layout hi
      rw [cl] at hi
      cases hi
  obtain ⟨a, hli, hpu, _⟩ := hpl.hangs inv placed v
  refine ⟨a, ?_, hpu⟩
  rw [hung_same cl low] at hli
  simp only [publish, cl, hln, hue, hu, hpa, bind_eq_bind, bind_some]
  exact hli

end

section

variable {heap hp : Heap width V} {key : Key width} {value : V} {node : Nat}
    {pa nodePrefix np : List KeyUnit}
  {la updated up : Layout Nat} {u : KeyUnit}

def Heap.added (heap : Heap width V) (key : Key width) (value : V) (node : Nat)
    (nodePrefix : List KeyUnit)
    (updated : Layout Nat) : Heap width V :=
  (heap.alloc (.leaf key value)).write node (.inner nodePrefix updated)

theorem Heap.added_node : (hp.added key value node np up).cells node = some (.inner np up) :=
  update_self ..

theorem Heap.added_leaf (low : node < hp.next) :
    (hp.added key value node np up).cells hp.next = some (.leaf key value) :=
  (update_of_ne (by omega) ..).trans (update_self ..)

theorem Heap.added_other (hnn : ot ≠ node) (hnl : ot ≠ hp.next) :
    (hp.added key value node np up).cells ot = hp.cells ot :=
  (update_of_ne hnn ..).trans (update_of_ne hnl ..)

theorem added_graft (inv : HeapInv hp) (hh : hp.trie.At pa node)
    (cl : hp.cells node = some (.inner np la)) (hm : la.getChild u = none)
    (hu : la.Updates up u hp.next) :
    Trie.Graft hp.trie (hp.added key value node np up).trie node node pa fun p other =>
      p = pa ∧ other = node ∨ p = pa ++ (np ++ [u]) ∧ other = hp.next := by
  have low := inv.at_allocated hh
  refine ⟨inv.injective, hh, Trie.replaces_self rfl ?_, .inl ⟨rfl, rfl⟩, ?_, ?_, ?_⟩
  · intro p other l c ht hd
    have := inv.at_allocated ht
    exact edge_congr (added_other hd (by omega))
  · rintro p other (⟨rfl, rfl⟩ | ⟨rfl, rfl⟩) ht
    · exact ht
    · exact ht.child ((edge_iff added_node).mpr ⟨u, by rw [hu, if_pos rfl], rfl⟩)
  · intro l c he ht
    obtain ⟨u', hb, rfl⟩ := (edge_iff cl).mp he
    have ha : u' ≠ u := by
      rintro rfl
      rw [hm] at hb
      cases hb
    exact ht.child ((edge_iff added_node).mpr ⟨u', by rw [hu, if_neg ha, hb], rfl⟩)
  · rintro p other l c (⟨rfl, rfl⟩ | ⟨rfl, rfl⟩) he
    · obtain ⟨u', hb, rfl⟩ := (edge_iff added_node).mp he
      rw [hu] at hb
      split at hb
      · next hs =>
        cases hb
        exact .inl (.inr ⟨by rw [hs], rfl⟩)
      · exact .inr ⟨_, rfl, (edge_iff cl).mpr ⟨u', hb, rfl⟩⟩
    · cases (edge_iff (added_leaf low)).mp he

theorem added_rewrites (inv : HeapInv hp) (hh : hp.trie.At pa node)
    (cl : hp.cells node = some (.inner np la))
    (hu : la.Updates up u hp.next) :
    Rewrites hp (hp.added key value node np up) node (· = node) := by
  have low := inv.at_allocated hh
  refine ⟨rfl, Nat.le_succ _, ?_, ?_, ?_, rfl, ?_, ?_, ?_, ?_⟩
  · intro other
    show _ ↔ other < hp.next + 1
    by_cases hin : other = node
    · rw [hin, added_node]
      exact iff_of_true rfl (by omega)
    by_cases hil : other = hp.next
    · rw [hil, added_leaf low]
      exact iff_of_true rfl (by omega)
    · rw [added_other hin hil, inv.allocated]
      omega
  · intro other hf
    exact (inv.root other hf).trans (Nat.lt_succ_self _)
  · intro other l c he
    show c < hp.next + 1
    by_cases hin : other = node
    · subst hin
      obtain ⟨u', hb, rfl⟩ := (edge_iff added_node).mp he
      rw [hu] at hb
      split at hb
      · cases hb
        omega
      · have := inv.children ((edge_iff cl).mpr ⟨u', hb, rfl⟩)
        omega
    by_cases hil : other = hp.next
    · subst hil
      cases (edge_iff (added_leaf low)).mp he
    · have := inv.children ((edge_congr (added_other hin hil)).mp he)
      omega
  · intro other hb hd
    exact added_other hd (by omega)
  · intro other s o hf
    have hb := inv.lt_of_cell hf
    have hd : other ≠ node := by
      rintro rfl
      rw [cl] at hf
      cases hf
    rw [added_other hd (by omega), hf]
  · intro other op ol hf
    have hb := inv.lt_of_cell hf
    by_cases hin : other = node
    · exact ⟨np, up, hin ▸ added_node⟩
    · exact ⟨op, ol, (added_other hin (by omega)).trans hf⟩
  · intro p other cl ht hd hf
    have hb := inv.at_allocated ht
    rw [added_other hd (by omega)] at hf
    exact inv.good ht hf

/-- **A new child** of a node with room. -/
theorem addChild_publishes (inv : HeapInv hp) {f : Frame} (hh : hp.trie.At pa f.node)
    (hsp : pa <+: key.units) (hde : pa.length = f.depth) (value : V)
    (cl : hp.cells f.node = some (.inner np la))
    (hf : ∀ len, prefixMatch key f.depth np = .ok len → len = np.length ∧ d = f.depth + np.length)
    (ha : ∀ u, key.units[d]? = some u → la.getChild u = none)
    (hr : la.isFull = false) :
    ∃ a, hp.addChild key value f d = some a ∧ Publishes hp a key (· = f.node) := by
  obtain ⟨hsh, hwf⟩ := inv.good hh cl
  obtain ⟨u, huh, _, hlo⟩ := unit_behind inv hh hsp hde cl hf
  have hm := ha u huh
  obtain ⟨updated, hd, huf, hu⟩ := insertChild_spec hwf u hp.next fun _ => hr
  have low := inv.at_allocated hh
  refine ⟨hp.added key value f.node np updated, ?_, ?_⟩
  · simp only [addChild, cl, huh, hd, bind_eq_bind, bind_some]
    rfl
  · refine grafted_publishes inv (added_graft inv hh cl hm hu)
      (added_rewrites inv hh cl hu) ?_ ?_ ?_ ?_ (.inr ⟨rfl, rfl⟩) (added_leaf low)
    · rintro fi s other (⟨rfl, rfl⟩ | ⟨rfl, rfl⟩) (⟨rfl, hs⟩ | ⟨rfl, hs⟩)
      · rfl
      · omega
      · omega
      · rfl
    · rintro p other (⟨_, rfl⟩ | ⟨_, rfl⟩)
      · exact .inl rfl
      · exact .inr le_rfl
    · rintro p other c' (⟨rfl, rfl⟩ | ⟨rfl, rfl⟩) hce
      · rw [added_node] at hce
        cases hce
        exact ⟨hsh, huf⟩
      · rw [added_leaf low] at hce
        cases hce
        exact hlo
    · intro st o hl
      rw [cl] at hl
      cases hl

end

section

variable {h : Heap width V} {k : Key width}

/-- **The first leaf** becomes the root. -/
theorem publish_root (inv : HeapInv h) (he : h.root = none) (v : V) :
    Publishes h { h.alloc (.leaf k v) with root := some h.next } k fun _ => False := by
  generalize hae : ({ h.alloc (.leaf k v) with root := some h.next } : Heap width V) = a
  have hl : a.cells h.next = some (.leaf k v) := hae ▸ update_self ..
  have other : ∀ {node}, node ≠ h.next → a.cells node = h.cells node := fun hd =>
    hae ▸ update_of_ne hd ..
  have hr : a.root = some h.next := hae ▸ rfl
  have hne : a.next = h.next + 1 := hae ▸ rfl
  have hw : a.words = h.words := hae ▸ rfl
  have hn : ∀ {p node}, ¬ h.trie.At p node := by
    intro p node hh
    obtain ⟨_, hf, _⟩ := hh.from_root
    exact nomatch he.symm.trans hf
  have ho : ∀ {p node}, a.trie.At p node → p = [] ∧ node = h.next := by
    intro p node hh
    obtain ⟨f, hf, hb⟩ := hh.from_root
    obtain rfl := some.inj (hr.symm.trans hf)
    cases hb with
    | refl => exact ⟨rfl, rfl⟩
    | step hed _ => cases (edge_iff hl).mp hed
  refine ⟨⟨?_, ?_, ?_, ?_, ?_, ?_, ?_⟩, ⟨[], h.next, v, .root hr, hl⟩, hw, ?_⟩
  · intro node
    rw [hne]
    by_cases hs : node = h.next
    · rw [hs, hl]
      exact iff_of_true rfl (by omega)
    · rw [other hs, inv.allocated]
      omega
  · intro node hf
    obtain rfl := some.inj (hr.symm.trans hf)
    omega
  · intro node l c hed
    by_cases hs : node = h.next
    · rw [hs] at hed
      cases (edge_iff hl).mp hed
    · have := inv.children ((edge_congr (other hs)).mp hed)
      omega
  · intro f s node hle hri
    rw [(ho hle).1, (ho hri).1]
  · intro p node cell hh hf
    obtain ⟨rfl, rfl⟩ := ho hh
    rw [hl] at hf
    cases hf
    exact nil_prefix
  · intro p node hh
    obtain ⟨_, rfl⟩ := ho hh
    rw [hw, inv.unused le_rfl]
    rfl
  · intro node hhi
    rw [hw]
    exact inv.unused (by omega)
  · refine ⟨by omega, ?_, ?_, ?_, ?_, fun _ hh => absurd hh hn⟩
    · intro node low _
      refine Prod.ext (other (by omega))
        (funext fun p => propext ⟨fun hh => ?_, fun hh => absurd hh hn⟩)
      have := (ho hh).2
      omega
    · intro node st o hf
      have := inv.lt_of_cell hf
      rw [other (by omega), hf]
    · intro node nodePrefix layout hf
      have := inv.lt_of_cell hf
      exact ⟨nodePrefix, layout, (other (by omega)).trans hf⟩
    · intro p node low hh
      have := (ho hh).2
      omega

end

end Proteus.Oltp.Index
