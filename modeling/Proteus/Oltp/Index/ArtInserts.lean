/-
**Insertions of many threads into the adaptive radix tree** (`oltp/index/ART/art.hpp`,
`insert_recursive_opt`).

What an insertion knows of a node, it knows as long as the word of the node is the one it has loaded
(`Known`), or while it has locked the node (`Held`): whoever changes a node, or its place, has it
locked, and a word only grows. With the words of node and parent, this says where the node is, and
that a planned change fits.

Two things are not protected by any word. The pointer to the root is written without a lock when the
tree was found empty, and the node that was read from it may be elsewhere when its word is loaded
(`RootStays`).

* `InsertPhase.Inv` — what an insertion knows at each of its steps.
* `insertStep_spec` — a step of an insertion succeeds, keeps the tree, and leaves the other threads
  what they know.
-/

import Proteus.Oltp.Index.ArtHeap

namespace Proteus.Oltp.Index

open Library List Option

variable {width : Nat} {V : Type} {version : Nat}

/-! ### Words -/

theorem isLocked_iff : isLocked version = true ↔ 2 ≤ version % 4 := by
  rw [isLocked, Nat.testBit_eq_decide_div_mod_eq, decide_eq_true_iff]
  omega

theorem isObsolete_iff : isObsolete version = true ↔ version % 2 = 1 := by
  rw [isObsolete, Nat.testBit_eq_decide_div_mod_eq, decide_eq_true_iff]
  omega

theorem isFree_iff : IsFree version ↔ version % 4 = 0 := by
  rw [IsFree, ← Bool.not_eq_true, ← Bool.not_eq_true, isLocked_iff, isObsolete_iff]
  omega

/-! ### What an insertion knows -/

abbrev View (width : Nat) (V : Type) := Option (Cell width V) × (List KeyUnit → Prop)

/-- A fact that holds as long as the word of the node does not change. -/
structure Known (heap : Heap width V) (node version : Nat) (Fact : View width V → Prop) : Prop where
  allocated : node < heap.next
  seen : version ≤ heap.words node
  free : version % 4 = 0
  fact : heap.words node = version → Fact (heap.view node)

/-- A fact that holds as long as the node is locked. -/
structure Held (heap : Heap width V) (node : Nat) (Fact : View width V → Prop) : Prop where
  allocated : node < heap.next
  locked : heap.words node % 4 = 2
  fact : Fact (heap.view node)

section

variable (key : Key width)

def Slot (child depth : Nat) (view : View width V) : Prop :=
  ∃ place nodePrefix layout unit, view.2 place ∧ view.1 = some (.inner nodePrefix layout) ∧
    layout.getChild unit = some child ∧ place ++ (nodePrefix ++ [unit]) <+: key.units ∧
    (place ++ (nodePrefix ++ [unit])).length = depth

def OnKey (depth : Nat) (view : View width V) : Prop :=
  ∃ path, view.2 path ∧ path <+: key.units ∧ path.length = depth

def AtRoot (frame : Frame) (view : View width V) : Prop := frame.parent = none → view.2 []

def Matches (start depth : Nat) (view : View width V) : Prop :=
  ∀ nodePrefix layout, view.1 = some (.inner nodePrefix layout) → ∀ len,
    prefixMatch key start nodePrefix = .ok len →
    len = nodePrefix.length ∧ depth = start + nodePrefix.length

def ChildIs (depth : Nat) (child : Option Nat) (view : View width V) : Prop :=
  ∀ nodePrefix layout unit, view.1 = some (.inner nodePrefix layout) →
    key.units[depth]? = some unit →
    layout.getChild unit = child

def IsInner (view : View width V) : Prop := ∃ nodePrefix layout,
    view.1 = some (.inner nodePrefix layout)

def Fullness (full : Bool) (view : View width V) : Prop :=
  ∀ nodePrefix layout, view.1 = some (.inner nodePrefix layout) → layout.isFull = full

def Misses (start depth : Nat) (full : Bool) (view : View width V) : Prop :=
  IsInner view ∧ Matches key start depth view ∧ ChildIs key depth none view ∧ Fullness full view

def Change.Fits (start : Nat) : Change → View width V → Prop
  | .split mismatch, view => ∃ nodePrefix layout, view.1 = some (.inner nodePrefix layout) ∧
    ∀ len, prefixMatch key start nodePrefix = .ok len → len = mismatch ∧ len ≠ nodePrefix.length
  | .grow depth, view => Misses key start depth true view
  | .branch, view => ∃ key2 old, view.1 = some (.leaf key2 old) ∧
    ¬ width ≤ start + sharedFrom key2 key (width - start) start

end

section

variable (heap : Heap width V) (key : Key width)

/-- What is known of a frame. -/
structure FrameInv (frame : Frame) : Prop where
  allocated : frame.node < heap.next
  depth : frame.parent = none → frame.depth = 0
  parent : ∀ {parent version}, frame.parent = some (parent, version) →
    Known heap parent version (Slot key frame.node frame.depth)

/-- What is known of a frame whose parent is locked. -/
structure FrameHeld (frame : Frame) : Prop where
  allocated : frame.node < heap.next
  depth : frame.parent = none → frame.depth = 0
  parent : ∀ {parent version}, frame.parent = some (parent, version) →
    Held heap parent (Slot key frame.node frame.depth)

def InsertPhase.Inv : InsertPhase → Prop
  | .start | .writeRoot => True
  | .load frame => FrameInv heap key frame
  | .readPrefix frame v => FrameInv heap key frame ∧ Known heap frame.node v (AtRoot frame)
  | .readChild frame v depth => FrameInv heap key frame ∧
    Known heap frame.node v fun view => AtRoot frame view ∧ Matches key frame.depth depth view
  | .check frame v depth child => FrameInv heap key frame ∧
    (∀ node, child = some node → node < heap.next) ∧
    Known heap frame.node v fun view =>
      AtRoot frame view ∧ Matches key frame.depth depth view ∧ ChildIs key depth child view
  | .checkParent frame v depth child => frame.parent ≠ none ∧ FrameInv heap key frame ∧
    (∀ node, child = some node → node < heap.next) ∧
    Known heap frame.node v fun view =>
      AtRoot frame view ∧ Matches key frame.depth depth view ∧ ChildIs key depth child view
  | .readFull frame v depth => FrameInv heap key frame ∧
    Known heap frame.node v fun view =>
      AtRoot frame view ∧ IsInner view ∧ Matches key frame.depth depth view ∧
        ChildIs key depth none view
  | .lockParent frame v change => FrameInv heap key frame ∧
    Known heap frame.node v fun view => AtRoot frame view ∧ change.Fits key frame.depth view
  | .lockNode frame v change => FrameHeld heap key frame ∧
    Known heap frame.node v fun view => AtRoot frame view ∧ change.Fits key frame.depth view
  | .lockAdd frame v depth => FrameInv heap key frame ∧
    Known heap frame.node v fun view => AtRoot frame view ∧ Misses key frame.depth depth false view
  | .checkLocked frame depth => FrameInv heap key frame ∧
    Held heap frame.node fun view => AtRoot frame view ∧ Misses key frame.depth depth false view
  | .addChild frame depth =>
    Held heap frame.node fun view => OnKey key frame.depth view ∧
      Misses key frame.depth depth false view
  | .publish frame change => FrameHeld heap key frame ∧
      frame.parent.map Prod.fst ≠ some frame.node ∧
    Held heap frame.node fun view => AtRoot frame view ∧ change.Fits key frame.depth view
  | .unlockNode node amount parent done => (amount = 2 ∨ amount = 3) ∧ parent ≠ some node ∧
    Held heap node (fun view => amount = 3 → ∀ path, ¬ view.2 path) ∧
    (∀ other, parent = some other → Held heap other fun _ => True) ∧
    (done = true → Present heap key)
  | .unlockParent parent done => Held heap parent (fun _ => True) ∧ (done = true → Present heap key)

def InsertPhase.Holds (node : Nat) : InsertPhase → Prop
  | .lockNode frame _ _ => frame.parent.map Prod.fst = some node
  | .checkLocked frame _ | .addChild frame _ => node = frame.node
  | .publish frame _ => node = frame.node ∨ frame.parent.map Prod.fst = some node
  | .unlockNode locked _ parent _ => node = locked ∨ parent = some node
  | .unlockParent parent _ => node = parent
  | _ => False

end

/-! ### Steps of other threads -/

structure Leaves (heap after : Heap width V) (Own : Nat → Prop) : Prop where
  keeps : Keeps heap after Own
  locked : ∀ {node}, Own node → isLocked (heap.words node) = true
  mono : ∀ node, heap.words node ≤ after.words node
  kept : ∀ {node}, ¬ Own node → isLocked (heap.words node) = true →
    after.words node = heap.words node

section

variable {h af : Heap width V} {Own : Nat → Prop} {n ve : Nat} {Fact : View width V → Prop}
  {k : Key width} {f : Frame} {ph : InsertPhase}

theorem Known.stable (hk : Known h n ve Fact) (hl : Leaves h af Own) : Known af n ve Fact := by
  refine ⟨hk.allocated.trans_le hl.keeps.next, hk.seen.trans (hl.mono n), hk.free, fun hs => ?_⟩
  have hb : h.words n = ve := le_antisymm (hs ▸ hl.mono n) hk.seen
  have hf : ¬ Own n := by
    intro own
    have hlo := isLocked_iff.mp (hl.locked own)
    have := hk.free
    omega
  rw [hl.keeps.view hk.allocated hf]
  exact hk.fact hb

theorem Held.stable (hh : Held h n Fact) (hl : Leaves h af Own) (hf : ¬ Own n) :
    Held af n Fact := by
  have hlo := isLocked_iff.mpr (by rw [hh.locked])
  refine ⟨hh.allocated.trans_le hl.keeps.next, ?_, ?_⟩
  · rw [hl.kept hf hlo]
    exact hh.locked
  · rw [hl.keeps.view hh.allocated hf]
    exact hh.fact

theorem FrameInv.stable (inv : FrameInv h k f) (hl : Leaves h af Own) : FrameInv af k f :=
  ⟨inv.allocated.trans_le hl.keeps.next, inv.depth, fun hf => (inv.parent hf).stable hl⟩

theorem FrameHeld.stable (inv : FrameHeld h k f) (hl : Leaves h af Own)
    (hfr : ∀ n, f.parent.map Prod.fst = some n → ¬ Own n) : FrameHeld af k f := by
  refine ⟨inv.allocated.trans_le hl.keeps.next, inv.depth, fun {p ve} hf => ?_⟩
  exact (inv.parent hf).stable hl (hfr p (by rw [hf]; rfl))

/-- **Steps of other threads** leave an insertion what it knows. -/
theorem InsertPhase.Inv.stable (inv : ph.Inv h k) (hl : Leaves h af Own)
    (hfr : ∀ n, ph.Holds n → ¬ Own n) : ph.Inv af k := by
  cases ph with
  | start | writeRoot => trivial
  | load f => exact FrameInv.stable inv hl
  | readPrefix f v | readChild f v de | readFull f v de | lockParent f v ch
  | lockAdd f v de => exact ⟨inv.1.stable hl, inv.2.stable hl⟩
  | check f v de c =>
    exact ⟨inv.1.stable hl, fun n hf => (inv.2.1 n hf).trans_le hl.keeps.next, inv.2.2.stable hl⟩
  | checkParent f v de c =>
    obtain ⟨hib, hfi, low, hk⟩ := inv
    exact ⟨hib, hfi.stable hl, fun n hf => (low n hf).trans_le hl.keeps.next, hk.stable hl⟩
  | lockNode f v ch => exact ⟨inv.1.stable hl hfr, inv.2.stable hl⟩
  | checkLocked f de => exact ⟨inv.1.stable hl, inv.2.stable hl (hfr _ rfl)⟩
  | addChild f de => exact Held.stable inv hl (hfr _ rfl)
  | publish f ch =>
    exact ⟨inv.1.stable hl fun n hf => hfr n (.inr hf), inv.2.1,
      inv.2.2.stable hl (hfr _ (.inl rfl))⟩
  | unlockNode n a p d =>
    obtain ⟨ham, ha, hh, hab, hp⟩ := inv
    exact ⟨ham, ha, hh.stable hl (hfr _ (.inl rfl)),
      fun o hf => (hab o hf).stable hl (hfr _ (.inr hf)),
      fun hid => hl.keeps.present (hp hid)⟩
  | unlockParent p d =>
    exact ⟨inv.1.stable hl (hfr _ rfl), fun hid => hl.keeps.present (inv.2 hid)⟩

end

/-! ### Steps of an insertion -/

def InsertPhase.RootStays (heap : Heap width V) : InsertPhase → Prop
  | .writeRoot => heap.root = none
  | .load frame => frame.parent = none → IsFree (heap.words frame.node) →
      heap.root = some frame.node
  | .lockParent frame _ _ => ∀ slot ∈ frame.parent, heap.words slot.1 + 3 < 2 ^ 64
  | .lockNode frame _ _ | .lockAdd frame _ _ => heap.words frame.node + 3 < 2 ^ 64
  | .unlockNode node _ _ _ | .unlockParent node _ => heap.words node + 3 < 2 ^ 64
  | _ => True

instance (heap : Heap width V) (phase : InsertPhase) : Decidable (phase.RootStays heap) :=
  match phase with
  | .writeRoot => inferInstanceAs (Decidable (heap.root = none))
  | .load frame =>
    inferInstanceAs
      (Decidable (frame.parent = none → IsFree (heap.words frame.node) →
        heap.root = some frame.node))
  | .lockParent frame _ _ =>
    inferInstanceAs (Decidable (∀ slot ∈ frame.parent, heap.words slot.1 + 3 < 2 ^ 64))
  | .lockNode frame _ _ | .lockAdd frame _ _ =>
    inferInstanceAs (Decidable (heap.words frame.node + 3 < 2 ^ 64))
  | .unlockNode node _ _ _ | .unlockParent node _ =>
    inferInstanceAs (Decidable (heap.words node + 3 < 2 ^ 64))
  | .start | .readPrefix _ _ | .readChild _ _ _ | .check _ _ _ _ | .readFull _ _ _
  | .checkParent _ _ _ _
  | .checkLocked _ _ | .addChild _ _ | .publish _ _ => inferInstanceAs (Decidable True)

def Moves (heap after : Heap width V) (Own Later : Nat → Prop) (node : Nat) : Prop :=
  after.words node = heap.words node ∧ (Later node ↔ Own node) ∨ heap.words node % 4 = 0 ∧
    Later node ∨
    Own node ∧ ¬ Later node ∧ isLocked (after.words node) = false

/-- **What a step of an insertion does.** -/
structure Stepped (heap after : Heap width V) (key : Key width) (phase : InsertPhase)
    (later : Option InsertPhase) :
    Prop where
  inv : HeapInv after
  leaves : Leaves heap after fun node => phase.Holds node
  moves : ∀ node, Moves heap after (fun node => phase.Holds node)
    (fun node => ∃ next ∈ later, next.Holds node) node
  phase : ∀ next ∈ later, next.Inv after key
  done : later = none → Present after key

section

variable {heap after : Heap width V} {key : Key width} {value : V} {phase nx : InsertPhase}
    {n a : Nat}
  {f : Frame} {v de : Nat}

theorem InsertPhase.Inv.locked (inv : phase.Inv heap key) (hh : phase.Holds n) :
    isLocked (heap.words n) = true := by
  have hlo : ∀ {o Fact}, Held heap o Fact → isLocked (heap.words o) = true := fun hhe =>
    isLocked_iff.mpr (by rw [hhe.locked])
  have hpo : ∀ {f : Frame}, FrameHeld heap key f → f.parent.map Prod.fst = some n →
      isLocked (heap.words n) = true := by
    intro f hhe hf
    obtain ⟨⟨p, version⟩, hpe, rfl⟩ := map_eq_some_iff.mp hf
    exact hlo (hhe.parent hpe)
  cases phase with
  | lockNode f v c => exact hpo inv.1 hh
  | checkLocked f de => exact hh ▸ hlo inv.2
  | addChild f de => exact hh ▸ hlo inv
  | publish f c =>
    rcases hh with rfl | hf
    · exact hlo inv.2.2
    · exact hpo inv.1 hf
  | unlockNode l a p d =>
    rcases hh with rfl | hf
    · exact hlo inv.2.2.1
    · exact hlo (inv.2.2.2.1 n hf)
  | unlockParent p d => exact hh ▸ hlo inv.1
  | _ => exact hh.elim

theorem Keeps.refl (heap : Heap width V) (Own : Nat → Prop) : Keeps heap heap Own :=
  ⟨le_rfl, fun _ _ => rfl, id, fun hf => ⟨_, _, hf⟩, fun _ hh => ⟨_, hh⟩, fun _ hh => ⟨_, hh⟩⟩

theorem Stepped.quiet (hhi : HeapInv heap) (inv : phase.Inv heap key)
    (hh : ∀ n, nx.Holds n ↔ phase.Holds n) (hni : nx.Inv heap key) :
    Stepped heap heap key phase (some nx) := by
  refine ⟨hhi, ⟨.refl heap _, inv.locked, fun _ => le_rfl, fun _ _ => rfl⟩, fun n => .inl ⟨rfl, ?_⟩,
    ?_, nofun⟩
  · simp only [mem_some_iff, exists_eq_left']
    exact hh n
  · rintro _ ⟨⟩
    exact hni

/-! #### Counting a word -/

theorem count_self (hb : heap.words n + 3 < 2 ^ 64) (hs : a ≤ 3) :
    (heap.count n a).words n = heap.words n + a :=
  (Function.update_self ..).trans (Nat.mod_eq_of_lt (by omega))

variable {o : Nat} {Fact : View width V → Prop} {later l : Option InsertPhase} {ch : Option Nat}
    {c : Change} {hdo : Bool}

theorem count_other (hd : o ≠ n) : (heap.count n a).words o = heap.words o :=
  Function.update_of_ne hd ..

theorem Keeps.count (heap : Heap width V) (n a : Nat) (Own : Nat → Prop) :
    Keeps heap (heap.count n a) Own :=
  ⟨le_rfl, fun _ _ => rfl, id, fun hf => ⟨_, _, hf⟩, fun _ hh => ⟨_, hh⟩, fun _ hh => ⟨_, hh⟩⟩

theorem HeapInv.count (inv : HeapInv heap) (low : n < heap.next) (hb : heap.words n + 3 < 2 ^ 64)
    (hsm : a ≤ 3)
    (hc : ∀ p, heap.trie.At p n → (heap.words n + a) % 2 = 0) :
    HeapInv (heap.count n a) := by
  refine ⟨inv.allocated, inv.root, inv.children, inv.injective, inv.good, ?_, ?_⟩
  · intro p o hh
    by_cases hs : o = n
    · subst hs
      rw [count_self hb hsm, ← Bool.not_eq_true, isObsolete_iff]
      have := hc p hh
      omega
    · rw [count_other hs]
      exact inv.current hh
  · intro o hhi
    have hd : o ≠ n := by
      rintro rfl
      exact absurd low (Nat.not_lt.mpr hhi)
    rw [count_other hd]
    exact inv.unused hhi

theorem Held.count (hh : Held heap o Fact) (hd : o ≠ n) : Held (heap.count n a) o Fact :=
  ⟨hh.allocated, by rw [count_other hd]; exact hh.locked, hh.fact⟩

theorem Stepped.lock (hhi : HeapInv heap) (inv : phase.Inv heap key) (low : n < heap.next)
    (hf : heap.words n % 4 = 0) (hb : heap.words n + 3 < 2 ^ 64)
    (hh : ∀ o, nx.Holds o ↔ o = n ∨ phase.Holds o)
    (hni : Leaves heap (heap.count n 2) (fun n => phase.Holds n) → nx.Inv (heap.count n 2) key) :
    Stepped heap (heap.count n 2) key phase (some nx) := by
  have hl : Leaves heap (heap.count n 2) fun n => phase.Holds n := by
    refine ⟨.count heap n 2 _, inv.locked, fun o => ?_, fun {o} _ hlo => ?_⟩
    · by_cases hs : o = n
      · rw [hs, count_self hb (by omega)]
        omega
      · rw [count_other hs]
    · have hd : o ≠ n := by
        rintro rfl
        have := isLocked_iff.mp hlo
        omega
      exact count_other hd
  refine ⟨hhi.count low hb (by omega) fun _ _ => by omega, hl, fun o => ?_, ?_, nofun⟩
  · simp only [Moves, mem_some_iff, exists_eq_left']
    by_cases hs : o = n
    · exact .inr (.inl ⟨hs ▸ hf, (hh o).mpr (.inl hs)⟩)
    · exact .inl ⟨count_other hs, (hh o).trans (or_iff_right hs)⟩
  · rintro _ ⟨⟩
    exact hni hl

theorem Stepped.unlock (hhi : HeapInv heap) (inv : phase.Inv heap key) (own : phase.Holds n)
    (low : n < heap.next) (hbo : heap.words n + 3 < 2 ^ 64)
    (ha : a = 2 ∨ a = 3) (hu : a = 3 → ∀ p, ¬ heap.trie.At p n)
    (hl : heap.words n % 4 = 2)
    (hho : ∀ o, (∃ nx ∈ l, nx.Holds o) ↔ phase.Holds o ∧ o ≠ n)
    (hni : ∀ nx ∈ l, nx.Inv (heap.count n a) key)
    (hdo : l = none → Present heap key) : Stepped heap (heap.count n a) key phase l := by
  have hsm : a ≤ 3 := by omega
  refine ⟨hhi.count low hbo hsm fun p hh => ?_, ⟨.count heap n a _, inv.locked, fun o => ?_,
    fun {o} hf _ => ?_⟩, fun o => ?_, hni, hdo⟩
  · rcases ha with rfl | rfl
    · omega
    · exact absurd hh (hu rfl p)
  · by_cases hs : o = n
    · rw [hs, count_self hbo hsm]
      omega
    · rw [count_other hs]
  · have hd : o ≠ n := by
      rintro rfl
      exact hf own
    exact count_other hd
  · rw [Moves, hho]
    by_cases hs : o = n
    · subst hs
      refine .inr (.inr ⟨own, fun hb => hb.2 rfl, ?_⟩)
      rw [count_self hbo hsm, ← Bool.not_eq_true, isLocked_iff]
      omega
    · exact .inl ⟨count_other hs, and_iff_left hs⟩

variable (known : Known heap n v Fact)

include known

/-! #### Reading a node -/

theorem not_locked_of_known (hs : heap.words n = v) : isLocked (heap.words n) = false := by
  rw [← Bool.not_eq_true, isLocked_iff, hs]
  have := known.free
  omega

theorem Known.and {More : View width V → Prop} (hm : heap.words n = v → More (heap.view n)) :
    Known heap n v fun vi => Fact vi ∧ More vi :=
  ⟨known.allocated, known.seen, known.free, fun hs => ⟨known.fact hs, hm hs⟩⟩

theorem Known.imp {More : View width V → Prop}
    (imp : heap.words n = v → Fact (heap.view n) → More (heap.view n)) : Known heap n v More :=
  ⟨known.allocated, known.seen, known.free, fun hs => imp hs (known.fact hs)⟩

omit known

open Heap

theorem comparePrefix_spec (hu : isLocked (heap.words n) = false) (t : Torn) (s : Nat) :
    (∀ de, heap.comparePrefix key n s t = .matched de → Matches key s de (heap.view n)) ∧
      ∀ len, heap.comparePrefix key n s t = .mismatch len →
        (Change.split len).Fits key s (heap.view n) := by
  rw [comparePrefix]
  cases hc : heap.cells n with
  | none =>
    refine ⟨fun de hf np l hh => ?_, nofun⟩
    exact nomatch hc.symm.trans hh
  | some hc' =>
    cases hc' with
    | leaf k o =>
      refine ⟨fun de hf np l hh => ?_, nofun⟩
      exact nomatch hc.symm.trans hh
    | inner np l =>
      simp only [hu, Bool.false_eq_true, if_false]
      cases hco : prefixMatch key s np with
      | error f =>
        refine ⟨fun de hf => ?_, fun len hf => ⟨np, l, hc, fun len' ho => ?_⟩⟩
        · intro np' l' hh len ho
          cases hc.symm.trans hh
          rw [hco] at ho
          cases ho
        · rw [hco] at ho
          cases ho
      | ok len =>
        by_cases hs : len = np.length
        · simp only [hs, ne_eq, not_true_eq_false, if_false]
          refine ⟨fun de hf => ?_, nofun⟩
          intro np' l' hh len' ho
          cases hc.symm.trans hh
          cases hf
          rw [hco] at ho
          cases ho
          exact ⟨hs, rfl⟩
        · simp only [ne_eq, hs, not_false_eq_true, if_true]
          refine ⟨nofun, fun len' hf => ⟨np, l, hc, fun len'' ho => ?_⟩⟩
          cases hf
          rw [hco] at ho
          cases ho
          exact ⟨rfl, hs⟩

theorem childOf_lt (hhi : HeapInv heap) (t : Torn) {ch : Nat}
    (hf : heap.childOf key n de t = some ch) : ch < heap.next := by
  have hfi : ∀ {r : Option Nat}, r.filter (· < heap.next) = some ch → ch < heap.next := fun r =>
    of_decide_eq_true (filter_eq_some_iff.mp r).2
  rw [childOf] at hf
  split at hf
  · next np l hc =>
    split at hf
    · exact hfi hf
    · split at hf
      · exact hhi.children ((edge_iff hc).mpr ⟨_, hf, rfl⟩)
      · exact hfi hf
  · cases hf

theorem childOf_spec (hu : isLocked (heap.words n) = false) (t : Torn) :
    ChildIs key de (heap.childOf key n de t) (heap.view n) := by
  intro np l u hc hh
  have hf : heap.cells n = some (.inner np l) := hc
  simp only [childOf, hf, hu, Bool.false_eq_true, if_false, hh]

theorem isFull_spec (hu : isLocked (heap.words n) = false) (t : Torn) :
    Fullness (heap.isFull n t) (heap.view n) := by
  intro np l hc
  have hf : heap.cells n = some (.inner np l) := hc
  simp only [isFull, hf, hu, Bool.false_eq_true, if_false]

/-! #### Places -/

theorem Slot.onKey {pa : Nat} (hs : Slot key n de (heap.view pa)) : OnKey key de (heap.view n) := by
  obtain ⟨p, np, l, u, ha, hc, hb, hsp, hl⟩ := hs
  exact ⟨_, Trie.At.child ha ((edge_iff hc).mpr ⟨u, hb, rfl⟩), hsp, hl⟩

theorem onKey_root (har : AtRoot f (heap.view f.node)) (hir : f.parent = none)
    (hs : f.depth = 0) : OnKey key f.depth (heap.view f.node) :=
  ⟨[], har hir, nil_prefix, hs.symm⟩

theorem FrameHeld.placed (hh : FrameHeld heap key f) (har : AtRoot f (heap.view f.node)) :
    ∃ pa, Placed heap key f pa := by
  cases hpe : f.parent with
  | none =>
    refine ⟨[], fun _ => ⟨Trie.at_nil_iff.mp (har hpe), rfl⟩, fun hf => ?_, nil_prefix,
      (hh.depth hpe).symm⟩
    rw [hpe] at hf
    cases hf
  | some s =>
    obtain ⟨p, np, l, u, ha, hc, hb, hs, hl⟩ := (hh.parent hpe).fact
    refine ⟨_, fun hf => ?_, fun hf => ?_, hs, hl⟩
    · rw [hpe] at hf
      cases hf
    · rw [hpe] at hf
      cases hf
      exact ⟨p, np, l, u, ha, hc, hb, rfl⟩

variable (heapInv : HeapInv heap)

include heapInv

theorem present_of_shared (hok : OnKey key de (heap.view n))
    {k : Key width} {o : V} (hc : heap.cells n = some (.leaf k o))
    (hsh : width ≤ de + sharedFrom k key (width - de) de) : Present heap key := by
  obtain ⟨p, hh, hsp, rfl⟩ := hok
  have hs2 : p <+: k.units := heapInv.good hh hc
  have hll : p.length + (width - p.length) = width := by
    have := hsp.length_le
    rw [key.length] at this
    omega
  obtain ⟨ha, hag, hsl, _⟩ := sharedFrom_spec (width - p.length) hsp hs2 hll
  have hl : width ≤ (p ++ key.slice p.length
      (sharedFrom k key (width - p.length) p.length)).length := by
    rw [length_append, hsl]
    exact hsh
  have hs : k = key := by
    refine Key.ext_units ?_
    rw [← hag.eq_of_length_le (by rw [k.length]; exact hl),
      ← ha.eq_of_length_le (by rw [key.length]; exact hl)]
  exact ⟨p, n, o, hh, hs ▸ hc⟩

/-! #### The way down -/

theorem slot_of_child (hok : OnKey key f.depth (heap.view f.node)) {ch : Nat}
    (hii : IsInner (heap.view f.node))
    (hm : Matches key f.depth de (heap.view f.node))
    (hci : ChildIs key de (some ch) (heap.view f.node)) :
    Slot key ch (de + 1) (heap.view f.node) := by
  obtain ⟨p, hh, hs, hl⟩ := hok
  obtain ⟨np, l, hc⟩ := hii
  obtain ⟨u, hue, hde, hlo⟩ := unit_behind heapInv hh hs hl hc (hm np l hc)
  refine ⟨p, np, l, u, hh, hc, hci np l u hc hue, hlo, ?_⟩
  simp only [length_append, length_singleton]
  omega

/-- **Behind the checks**, on the key: the key is there, or the next step knows what it needs. -/
theorem descend_spec (inv : FrameInv heap key f) (low : ∀ n, ch = some n → n < heap.next)
    (known : Known heap f.node v fun vi =>
      AtRoot f vi ∧ Matches key f.depth de vi ∧ ChildIs key de ch vi)
    (hok : OnKey key f.depth (heap.view f.node)) :
    (∀ nx ∈ heap.descend key f v de ch, nx.Inv heap key ∧ ∀ n, ¬ nx.Holds n) ∧
      (heap.descend key f v de ch = none → Present heap key) := by
  obtain ⟨c, hce⟩ := heapInv.cell_of_lt inv.allocated
  cases c with
  | leaf k o =>
    by_cases hs : width ≤ f.depth + sharedFrom k key (width - f.depth) f.depth
    · simp only [descend, hce, if_pos hs]
      exact ⟨nofun, fun _ => present_of_shared heapInv hok hce hs⟩
    · simp only [descend, hce, if_neg hs]
      refine ⟨?_, nofun⟩
      rintro _ ⟨⟩
      exact ⟨⟨inv, known.imp fun _ hf => ⟨hf.1, k, o, hce, hs⟩⟩, fun _ => id⟩
  | inner np l =>
    cases ch with
    | none =>
      simp only [descend, hce]
      refine ⟨?_, nofun⟩
      rintro _ ⟨⟩
      exact ⟨trivial, fun _ => id⟩
    | some ch =>
      simp only [descend, hce]
      refine ⟨?_, nofun⟩
      rintro _ ⟨⟩
      refine ⟨⟨low ch rfl, nofun, ?_⟩, fun _ => id⟩
      rintro _ _ ⟨⟩
      exact known.imp fun _ hf =>
        slot_of_child heapInv hok ⟨np, l, hce⟩ hf.2.1 hf.2.2

theorem Stepped.descend (hpi : phase.Inv heap key)
    (hh : ∀ n, ¬ phase.Holds n) (inv : FrameInv heap key f)
    (low : ∀ n, ch = some n → n < heap.next)
    (known : Known heap f.node v fun vi =>
      AtRoot f vi ∧ Matches key f.depth de vi ∧ ChildIs key de ch vi)
    (hok : OnKey key f.depth (heap.view f.node)) :
    Stepped heap heap key phase (heap.descend key f v de ch) := by
  obtain ⟨hni, hp⟩ := descend_spec heapInv inv low known hok
  refine ⟨heapInv, ⟨.refl heap _, hpi.locked, fun _ => le_rfl, fun _ _ => rfl⟩,
    fun n => .inl ⟨rfl, ?_⟩, fun nx hf => (hni nx hf).1, hp⟩
  refine iff_of_false ?_ (hh n)
  rintro ⟨nx, hf, later⟩
  exact (hni nx hf).2 n later

/-! #### The changes -/

/-- **A planned change succeeds** while the node and its parent are locked. -/
theorem publish_spec (hh : FrameHeld heap key f) (har : AtRoot f (heap.view f.node))
    (hfi : c.Fits key f.depth (heap.view f.node)) (value : V) :
    ∃ after, heap.publish key value f c = some after ∧
      Publishes heap after key (fun n => n = f.node ∨ f.parent.map Prod.fst = some n) ∧
      (c.unlocks = 3 → ∀ p, ¬ after.trie.At p f.node) := by
  obtain ⟨pa, hpl⟩ := hh.placed har
  cases c with
  | split m =>
    obtain ⟨np, l, hc, hf⟩ := hfi
    obtain ⟨after, hdo, hpu⟩ := publish_split heapInv hpl value hc hf
    exact ⟨after, hdo, hpu, nofun⟩
  | grow de =>
    obtain ⟨⟨np, l, hc⟩, hm, ha, hfu⟩ := hfi
    obtain ⟨after, hdo, hpu, haw⟩ := publish_grow heapInv hpl value hc (hm np l hc)
      (fun u => ha np l u hc) (hfu np l hc)
    exact ⟨after, hdo, hpu, fun _ => haw⟩
  | branch =>
    obtain ⟨k, o, hc, hp⟩ := hfi
    obtain ⟨after, hdo, hpu⟩ := publish_branch heapInv hpl value hc hp
    exact ⟨after, hdo, hpu, nofun⟩

omit heapInv

theorem Stepped.publish (hpi : phase.Inv heap key)
    (hp : Publishes heap after key fun n => phase.Holds n)
    (hh : ∀ n, (∃ nx ∈ l, nx.Holds n) ↔ phase.Holds n)
    (hni : ∀ nx ∈ l, nx.Inv after key) : Stepped heap after key phase l := by
  refine ⟨hp.inv, ⟨hp.keeps, hpi.locked, fun n => ?_, fun _ _ => ?_⟩,
    fun n => .inl ⟨?_, hh n⟩, hni, fun _ => hp.present⟩
  · rw [hp.words]
  · rw [hp.words]
  · rw [hp.words]

theorem Held.published {Own : Nat → Prop} {More : View width V → Prop} (hh : Held heap n Fact)
    (hp : Publishes heap after key Own) (hf : More (after.view n)) : Held after n More :=
  ⟨hh.allocated.trans_le hp.keeps.next, by rw [hp.words]; exact hh.locked, hf⟩

/-! #### Every step -/

def StepsWell (heap : Heap width V) (key : Key width) (value : V) (torn : Torn)
    (phase : InsertPhase) : Prop :=
  ∃ after later, insertStep heap key value torn phase = some (after, later) ∧
    Stepped heap after key phase later

variable {t : Torn}

open InsertPhase

section

variable (heapInv : HeapInv heap)

include heapInv

theorem StepsWell.quiet (inv : phase.Inv heap key) (nx : InsertPhase)
    (ht : insertStep heap key value t phase = some (heap, some nx))
    (hh : ∀ n, nx.Holds n ↔ phase.Holds n) (hni : nx.Inv heap key) :
    StepsWell heap key value t phase :=
  ⟨heap, some nx, ht, .quiet heapInv inv hh hni⟩

theorem StepsWell.restart (inv : phase.Inv heap key)
    (ht : insertStep heap key value t phase = some (heap, some .start))
    (hh : ∀ n, ¬ phase.Holds n) :
    StepsWell heap key value t phase :=
  .quiet heapInv inv .start ht (fun n => iff_of_false id (hh n)) trivial

theorem load_spec (inv : FrameInv heap key f) (hs : (load f).RootStays heap) :
    StepsWell heap key value t (.load f) := by
  by_cases hf : IsFree (heap.words f.node)
  · refine .quiet heapInv inv (.readPrefix f (heap.words f.node)) ?_ (fun _ => Iff.rfl) ⟨inv, ?_⟩
    · simp only [insertStep, if_pos hf]
    exact ⟨inv.allocated, le_rfl, isFree_iff.mp hf, fun _ hir => .root (hs hir hf)⟩
  · refine .restart heapInv inv ?_ fun _ => id
    simp only [insertStep, if_neg hf]

theorem readPrefix_spec (inv : (readPrefix f v).Inv heap key) :
    StepsWell heap key value t (.readPrefix f v) := by
  obtain ⟨hfi, known⟩ := inv
  cases hc : heap.comparePrefix key f.node f.depth t with
  | mismatch len =>
    refine .quiet heapInv ⟨hfi, known⟩ (.lockParent f v (.split len)) ?_ (fun _ => Iff.rfl)
      ⟨hfi, known.and fun hs => ?_⟩
    · simp only [insertStep, hc]
    exact (comparePrefix_spec (not_locked_of_known known hs) t f.depth).2 len hc
  | matched de =>
    refine .quiet heapInv ⟨hfi, known⟩ (.readChild f v de) ?_ (fun _ => Iff.rfl)
      ⟨hfi, known.and fun hs => ?_⟩
    · simp only [insertStep, hc]
    exact (comparePrefix_spec (not_locked_of_known known hs) t f.depth).1 de hc

theorem readChild_spec (inv : (readChild f v de).Inv heap key) :
    StepsWell heap key value t (.readChild f v de) := by
  obtain ⟨hfi, known⟩ := inv
  refine .quiet heapInv ⟨hfi, known⟩ (.check f v de (heap.childOf key f.node de t)) rfl
    (fun _ => Iff.rfl)
    ⟨hfi, fun n hf => childOf_lt heapInv t hf, known.imp fun hs hfa => ?_⟩
  exact ⟨hfa.1, hfa.2, childOf_spec (not_locked_of_known known hs) t⟩

theorem isInner_of_not_leaf (low : n < heap.next) (hnl : heap.isLeaf n = false) :
    IsInner (heap.view n) := by
  obtain ⟨c, hce⟩ := heapInv.cell_of_lt low
  cases c with
  | leaf k o =>
    rw [isLeaf, hce] at hnl
    cases hnl
  | inner np l => exact ⟨np, l, hce⟩

theorem check_spec (inv : (check f v de ch).Inv heap key) :
    StepsWell heap key value t (.check f v de ch) := by
  have hpi := inv
  obtain ⟨hfi, low, known⟩ := inv
  by_cases hs : heap.words f.node = v
  · obtain ⟨har, hm, hci⟩ := known.fact hs
    by_cases hmi : ch = none ∧ heap.isLeaf f.node = false
    · refine .quiet heapInv hpi (.readFull f v de) ?_ (fun _ => Iff.rfl)
        ⟨hfi, known.imp fun _ _ => ?_⟩
      · simp only [insertStep, hs, ne_eq, not_true_eq_false, if_false, if_pos hmi]
      exact ⟨har, isInner_of_not_leaf heapInv hfi.allocated hmi.2, hm, hmi.1 ▸ hci⟩
    · by_cases hir : f.parent = none
      · have ht : insertStep heap key value t (.check f v de ch) =
            some (heap, heap.descend key f v de ch) := by
          simp only [insertStep, hs, ne_eq, not_true_eq_false, if_false, if_neg hmi, if_pos hir]
        exact ⟨_, _, ht, .descend heapInv hpi (fun _ => id) hfi low known
          (onKey_root har hir (hfi.depth hir))⟩
      · refine .quiet heapInv hpi (.checkParent f v de ch) ?_ (fun _ => Iff.rfl) ⟨hir, hpi⟩
        simp only [insertStep, hs, ne_eq, not_true_eq_false, if_false, if_neg hmi, if_neg hir]
  · refine .restart heapInv hpi ?_ fun _ => id
    simp only [insertStep, ne_eq, hs, not_false_eq_true, if_true]

theorem readFull_spec (inv : (readFull f v de).Inv heap key) :
    StepsWell heap key value t (.readFull f v de) := by
  have hpi := inv
  obtain ⟨hfi, known⟩ := inv
  have hm : Known heap f.node v fun vi =>
      AtRoot f vi ∧ Misses key f.depth de (heap.isFull f.node t) vi := by
    refine known.imp fun hs hfa => ⟨hfa.1, hfa.2.1, hfa.2.2.1, hfa.2.2.2, ?_⟩
    exact isFull_spec (not_locked_of_known known hs) t
  cases hf : heap.isFull f.node t with
  | true =>
    rw [hf] at hm
    refine .quiet heapInv hpi (.lockParent f v (.grow de)) ?_ (fun _ => Iff.rfl) ⟨hfi, hm⟩
    simp only [insertStep, hf, if_true]
  | false =>
    rw [hf] at hm
    refine .quiet heapInv hpi (.lockAdd f v de) ?_ (fun _ => Iff.rfl) ⟨hfi, hm⟩
    simp only [insertStep, hf, Bool.false_eq_true, if_false]

theorem checkParent_spec (inv : (checkParent f v de ch).Inv heap key) :
    StepsWell heap key value t (.checkParent f v de ch) := by
  have hpi := inv
  obtain ⟨hib, hfi, low, known⟩ := inv
  cases hpe : f.parent with
  | none => exact absurd hpe hib
  | some s =>
    obtain ⟨p, pv⟩ := s
    by_cases hs : heap.words p = pv
    · have ht : insertStep heap key value t (.checkParent f v de ch) =
          some (heap, heap.descend key f v de ch) := by
        simp only [insertStep, hpe, hs, ne_eq, not_true_eq_false, if_false]
      have s := (hfi.parent hpe).fact hs
      exact ⟨_, _, ht, .descend heapInv hpi (fun _ => id) hfi low known s.onKey⟩
    · refine .restart heapInv hpi ?_ fun _ => id
      simp only [insertStep, hpe, ne_eq, hs, not_false_eq_true, if_true]

end

theorem Known.lock (known : Known heap n v Fact) (hs : heap.words n = v)
    (hb : heap.words n + 3 < 2 ^ 64) : Held (heap.count n 2) n Fact := by
  refine ⟨known.allocated, ?_, known.fact hs⟩
  rw [count_self hb (by omega), hs]
  have := known.free
  omega

variable (heapInv : HeapInv heap)

include heapInv

theorem lockParent_spec (inv : (lockParent f v c).Inv heap key)
    (hst : (lockParent f v c).RootStays heap) :
    StepsWell heap key value t (.lockParent f v c) := by
  have hpi := inv
  obtain ⟨hfi, known⟩ := inv
  cases hpe : f.parent with
  | none =>
    refine .quiet heapInv hpi (.lockNode f v c) ?_ (fun n => ?_)
      ⟨⟨hfi.allocated, hfi.depth, ?_⟩, known⟩
    · simp only [insertStep, hpe]
    · refine iff_of_false ?_ id
      show f.parent.map Prod.fst ≠ some n
      rw [hpe]
      nofun
    · intro p version hf
      rw [hpe] at hf
      cases hf
  | some s =>
    obtain ⟨p, pv⟩ := s
    have hpk := hfi.parent hpe
    by_cases hs : heap.words p = pv
    · have ht : insertStep heap key value t (.lockParent f v c) =
          some (heap.count p 2, some (.lockNode f v c)) := by
        simp only [insertStep, hpe, lock, if_pos hs]
      refine ⟨_, _, ht, .lock heapInv hpi hpk.allocated (hs ▸ hpk.free) (hst _ hpe)
        (fun n => ?_) fun hl => ⟨⟨hfi.allocated, hfi.depth, ?_⟩, known.stable hl⟩⟩
      · show f.parent.map Prod.fst = some n ↔ n = p ∨ False
        rw [hpe, map_some, Option.some.injEq, or_false, eq_comm]
      · intro o version hf
        rw [hpe] at hf
        cases hf
        exact hpk.lock hs (hst _ hpe)
    · refine .restart heapInv hpi ?_ fun _ => id
      simp only [insertStep, hpe, lock, if_neg hs]

theorem lockNode_spec (inv : (lockNode f v c).Inv heap key)
    (hst : (lockNode f v c).RootStays heap) :
    StepsWell heap key value t (.lockNode f v c) := by
  have hpi := inv
  obtain ⟨hfh, known⟩ := inv
  by_cases hs : heap.words f.node = v
  · have ht : insertStep heap key value t (.lockNode f v c) =
        some (heap.count f.node 2, some (.publish f c)) := by
      simp only [insertStep, lock, if_pos hs]
    -- the parent is locked, so it is another node
    have ha : ∀ {p version}, f.parent = some (p, version) → p ≠ f.node := by
      rintro _ version hpe rfl
      have hlo := (hfh.parent hpe).locked
      have := known.free
      omega
    refine ⟨_, _, ht, .lock heapInv hpi known.allocated (hs ▸ known.free) hst (fun n => Iff.rfl)
      fun hl => ⟨⟨hfh.allocated, hfh.depth, fun hpe => ?_⟩, ?_, known.lock hs hst⟩⟩
    · exact (hfh.parent hpe).count (ha hpe)
    · intro hf
      obtain ⟨⟨p, version⟩, hpe, hin⟩ := map_eq_some_iff.mp hf
      exact ha hpe hin
  · cases hpe : f.parent with
    | none =>
      refine .restart heapInv hpi ?_ fun n => ?_
      · simp only [insertStep, hpe, lock, if_neg hs]
      show f.parent.map Prod.fst ≠ some n
      rw [hpe]
      nofun
    | some s =>
      obtain ⟨p, pv⟩ := s
      have hh := hfh.parent hpe
      refine .quiet heapInv hpi (.unlockParent p false) ?_ (fun n => ?_)
        ⟨⟨hh.allocated, hh.locked, trivial⟩, nofun⟩
      · simp only [insertStep, hpe, lock, if_neg hs]
      show n = p ↔ f.parent.map Prod.fst = some n
      rw [hpe, map_some, Option.some.injEq, eq_comm]

theorem lockAdd_spec (inv : (lockAdd f v de).Inv heap key) (hst : (lockAdd f v de).RootStays heap) :
    StepsWell heap key value t (.lockAdd f v de) := by
  have hpi := inv
  obtain ⟨hfi, known⟩ := inv
  by_cases hs : heap.words f.node = v
  · have ht : insertStep heap key value t (.lockAdd f v de) =
        some (heap.count f.node 2, some (.checkLocked f de)) := by
      simp only [insertStep, lock, if_pos hs]
    exact ⟨_, _, ht, .lock heapInv hpi known.allocated (hs ▸ known.free) hst
      (fun n => (or_iff_left id).symm) fun hl => ⟨hfi.stable hl, known.lock hs hst⟩⟩
  · refine .restart heapInv hpi ?_ fun _ => id
    simp only [insertStep, lock, if_neg hs]

theorem checkLocked_spec (inv : (checkLocked f de).Inv heap key) :
    StepsWell heap key value t (.checkLocked f de) := by
  have hpi := inv
  obtain ⟨hfi, hh⟩ := inv
  have hr : OnKey key f.depth (heap.view f.node) → (addChild f de).Inv heap key :=
    fun hok => ⟨hh.allocated, hh.locked, hok, hh.fact.2⟩
  cases hpe : f.parent with
  | none =>
    refine .quiet heapInv hpi (.addChild f de) ?_ (fun _ => Iff.rfl)
      (hr (onKey_root hh.fact.1 hpe (hfi.depth hpe)))
    simp only [insertStep, hpe]
  | some s =>
    obtain ⟨p, pv⟩ := s
    by_cases hs : heap.words p = pv
    · refine .quiet heapInv hpi (.addChild f de) ?_ (fun _ => Iff.rfl)
        (hr ((hfi.parent hpe).fact hs).onKey)
      simp only [insertStep, hpe, hs, ne_eq, not_true_eq_false, if_false]
    · refine .quiet heapInv hpi (.unlockNode f.node 2 none false) ?_ (fun n => ?_)
        ⟨.inl rfl, nofun, ⟨hh.allocated, hh.locked, nofun⟩, nofun, nofun⟩
      · simp only [insertStep, hpe, ne_eq, hs, not_false_eq_true, if_true]
      show n = f.node ∨ none = some n ↔ n = f.node
      rw [or_iff_left nofun]

theorem addChild_spec (inv : (addChild f de).Inv heap key) :
    StepsWell heap key value t (.addChild f de) := by
  have hpi := inv
  have hhe : Held heap f.node _ := inv
  obtain ⟨⟨p, hh, hs, hl⟩, ⟨np, l, hc⟩, hm, ha, hr⟩ := hhe.fact
  obtain ⟨after, hdo, hp⟩ := addChild_publishes heapInv hh hs hl value hc
    (hm np l hc) (fun u => ha np l u hc)
    (hr np l hc)
  have ht : insertStep heap key value t (.addChild f de) =
      some (after, some (.unlockNode f.node 2 none true)) := by
    simp only [insertStep, hdo, map_some]
  refine ⟨_, _, ht, .publish hpi hp (fun n => ?_) ?_⟩
  · simp only [mem_some_iff, exists_eq_left']
    show n = f.node ∨ none = some n ↔ n = f.node
    rw [or_iff_left nofun]
  · rintro _ ⟨⟩
    exact ⟨.inl rfl, nofun, hhe.published hp nofun, nofun, fun _ => hp.present⟩

theorem publishStep_spec (inv : (publish f c).Inv heap key) :
    StepsWell heap key value t (.publish f c) := by
  have hpi := inv
  obtain ⟨hfh, ha, hh⟩ := inv
  obtain ⟨after, hdo, hp, haw⟩ := publish_spec heapInv hfh hh.fact.1 hh.fact.2 value
  have ht : insertStep heap key value t (.publish f c) =
      some (after, some (.unlockNode f.node c.unlocks (f.parent.map Prod.fst) true)) := by
    simp only [insertStep, hdo, map_some]
  refine ⟨_, _, ht, .publish hpi hp (fun n => ?_) ?_⟩
  · simp only [mem_some_iff, exists_eq_left']
    exact Iff.rfl
  · rintro _ ⟨⟩
    have ham : c.unlocks = 2 ∨ c.unlocks = 3 := by
      cases c
      · exact .inl rfl
      · exact .inr rfl
      · exact .inl rfl
    refine ⟨ham, ha, hh.published hp haw, fun o hf => ?_, fun _ => hp.present⟩
    obtain ⟨⟨p, version⟩, hpe, rfl⟩ := map_eq_some_iff.mp hf
    exact (hfh.parent hpe).published hp trivial

omit heapInv

theorem finish_present (hp : hdo = true → Present heap key) (he : finish hdo = none) :
    Present heap key := by
  cases hdo with
  | true => exact hp rfl
  | false => cases he

theorem finish_start (hf : nx ∈ finish hdo) : nx = .start := by
  cases hdo with
  | true => cases hf
  | false =>
    cases hf
    rfl

variable (heapInv : HeapInv heap)

include heapInv

theorem unlockNode_spec {p : Option Nat} (inv : (unlockNode n a p hdo).Inv heap key)
    (hst : (unlockNode n a p hdo).RootStays heap) :
    StepsWell heap key value t (.unlockNode n a p hdo) := by
  have hpi := inv
  obtain ⟨ham, ha, hhe, hab, hp⟩ := inv
  cases p with
  | none =>
    have ht : insertStep heap key value t (.unlockNode n a none hdo) =
        some (heap.count n a, finish hdo) := rfl
    refine ⟨_, _, ht, .unlock heapInv hpi (.inl rfl) hhe.allocated hst ham hhe.fact hhe.locked
      (fun o => ?_) ?_ (finish_present hp)⟩
    · refine iff_of_false ?_ ?_
      · rintro ⟨nx, hf, hh⟩
        rw [finish_start hf] at hh
        exact hh
      · rintro ⟨hs | none, hd⟩
        · exact hd hs
        · cases none
    · intro nx hf
      rw [finish_start hf]
      trivial
  | some p =>
    have ht : insertStep heap key value t (.unlockNode n a (some p) hdo) =
        some (heap.count n a, some (.unlockParent p hdo)) := rfl
    have hd : p ≠ n := fun hs => ha (by rw [hs])
    refine ⟨_, _, ht, .unlock heapInv hpi
      (.inl rfl) hhe.allocated hst ham hhe.fact hhe.locked (fun o => ?_) ?_ nofun⟩
    · simp only [mem_some_iff, exists_eq_left']
      show o = p ↔ (o = n ∨ some p = some o) ∧ o ≠ n
      refine ⟨?_, ?_⟩
      · rintro rfl
        exact ⟨.inr rfl, hd⟩
      · rintro ⟨hs | hs, hnn⟩
        · exact absurd hs hnn
        · exact (some.inj hs).symm
    · rintro _ ⟨⟩
      exact ⟨(hab p rfl).count hd, hp⟩

theorem unlockParent_spec (inv : (unlockParent n hdo).Inv heap key)
    (hs : (unlockParent n hdo).RootStays heap) :
    StepsWell heap key value t (.unlockParent n hdo) := by
  have hpi := inv
  obtain ⟨hhe, hp⟩ := inv
  have ht : insertStep heap key value t (.unlockParent n hdo) = some (heap.count n 2, finish hdo) :=
    rfl
  refine ⟨_, _, ht, .unlock heapInv hpi rfl hhe.allocated hs (.inl rfl) nofun hhe.locked
    (fun o => ?_) ?_ (finish_present hp)⟩
  · refine iff_of_false ?_ fun hb => hb.2 hb.1
    rintro ⟨nx, hf, hh⟩
    rw [finish_start hf] at hh
    exact hh
  · intro nx hf
    rw [finish_start hf]
    trivial

theorem start_spec : StepsWell heap key value t .start := by
  cases hr : heap.root with
  | none =>
    refine .quiet heapInv trivial .writeRoot ?_ (fun _ => Iff.rfl) trivial
    simp only [insertStep, hr]
  | some n =>
    refine .quiet heapInv trivial (.load ⟨none, n, 0⟩) ?_ (fun _ => Iff.rfl)
      ⟨heapInv.root n hr, fun _ => rfl, nofun⟩
    simp only [insertStep, hr]

theorem writeRoot_spec (hs : writeRoot.RootStays heap) : StepsWell heap key value t .writeRoot := by
  have inv := trivial
  refine ⟨_, _, rfl, .publish inv (publish_root heapInv hs value) (fun n => ?_) nofun⟩
  exact iff_of_false (fun ⟨_, hf, _⟩ => nomatch hf) id

omit heapInv

/-- **Every step of an insertion** that meets the condition succeeds, keeps the tree, and leaves the
other threads what they know. -/
theorem insertStep_spec (heapInv : HeapInv heap) (inv : phase.Inv heap key)
    (hs : phase.RootStays heap)
    (value : V) (t : Torn) : StepsWell heap key value t phase := by
  cases phase with
  | start => exact start_spec heapInv
  | writeRoot => exact writeRoot_spec heapInv hs
  | load f => exact load_spec heapInv inv hs
  | readPrefix f v => exact readPrefix_spec heapInv inv
  | readChild f v de => exact readChild_spec heapInv inv
  | check f v de ch => exact check_spec heapInv inv
  | readFull f v de => exact readFull_spec heapInv inv
  | checkParent f v de ch => exact checkParent_spec heapInv inv
  | lockParent f v c => exact lockParent_spec heapInv inv hs
  | lockNode f v c => exact lockNode_spec heapInv inv hs
  | lockAdd f v de => exact lockAdd_spec heapInv inv hs
  | checkLocked f de => exact checkLocked_spec heapInv inv
  | addChild f de => exact addChild_spec heapInv inv
  | publish f c => exact publishStep_spec heapInv inv
  | unlockNode n a p hdo => exact unlockNode_spec heapInv inv hs
  | unlockParent p hdo => exact unlockParent_spec heapInv inv hs

end

end Proteus.Oltp.Index
