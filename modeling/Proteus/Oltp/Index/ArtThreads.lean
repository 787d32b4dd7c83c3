/-
**The adaptive radix tree with many threads** (`oltp/index/ART/art.hpp`, `art_node.hpp`).

Nodes lie in memory and are never freed. Each has a version word: bit 1 is its lock, bit 0 says that
it was replaced, and every change counts the word up. An insertion walks down with the word of each
node and that of its parent, and locks the node it changes, and its parent, if their words are still
the same. A lookup locks nothing and compares the words again. Whoever finds another word starts
again at the root.

A step of a thread is one load or exchange of a word, one read of a node, or the writes to the nodes
that it has locked. What is read from a node while another thread has it locked may be anything
(`Torn`), except that a pointer is a pointer to some node. A new node is not seen by other threads
before it is written into the tree, and gets its place in memory then.

* `insertStep` — `insert` and `insert_recursive_opt`, one step.
* `findStep` — `find_impl` and `getByKey_opt`, one step.
* `art` — the machine of all threads.
-/

import Proteus.Library.Machine
import Proteus.Oltp.Index.Art

namespace Proteus.Oltp.Index

open Library

variable {width : Nat} {V : Type}

/-! ### Memory -/

/-- A node. The children are places in memory. -/
inductive Cell (width : Nat) (V : Type) where
  | leaf (key : Key width) (value : V)
  | inner (nodePrefix : List KeyUnit) (layout : Layout Nat)

def isLocked (version : Nat) : Bool := version.testBit 1

def isObsolete (version : Nat) : Bool := version.testBit 0

/-- A word that is neither locked nor obsolete. -/
def IsFree (version : Nat) : Prop := isLocked version = false ∧ isObsolete version = false

instance (version : Nat) : Decidable (IsFree version) := inferInstanceAs (Decidable (_ ∧ _))

/-- The memory behind the tree; `words` are the fields `typeVersionLockObsolete`. -/
structure Heap (width : Nat) (V : Type) where
  root : Option Nat
  cells : Nat → Option (Cell width V)
  words : Nat → Nat
  next : Nat

/-- What is read from a node that is being written. -/
structure Torn where
  mismatch : Option Nat
  depth : Nat
  child : Option Nat
  full : Bool

/-- `prefix_match` found a difference, or the depth behind the prefix. -/
inductive Compared where
  | mismatch (len : Nat)
  | matched (depth : Nat)
deriving DecidableEq

def Torn.compared (torn : Torn) : Compared :=
  match torn.mismatch with
  | some len => .mismatch len
  | none => .matched torn.depth

namespace Heap

def initial : Heap width V where
  root := none
  cells := fun _ => none
  words := fun _ => 4
  next := 0

variable (heap : Heap width V)

def alloc (cell : Cell width V) : Heap width V :=
  { heap with cells := Function.update heap.cells heap.next (some cell), next := heap.next + 1 }

def write (node : Nat) (cell : Cell width V) : Heap width V :=
  { heap with cells := Function.update heap.cells node (some cell) }

/-- `fetch_add` on a version word. -/
def count (node amount : Nat) : Heap width V :=
  { heap with words := Function.update heap.words node ((heap.words node + amount) % 2 ^ 64) }

def lock (node version : Nat) : Option (Heap width V) :=
  if heap.words node = version then some (heap.count node 2) else none

def isLeaf (node : Nat) : Bool :=
  match heap.cells node with
  | some (.leaf _ _) => true
  | _ => false

def comparePrefix (key : Key width) (node depth : Nat) (torn : Torn) : Compared :=
  match heap.cells node with
  | some (.inner nodePrefix _) =>
    if isLocked (heap.words node) then torn.compared
    else
      match prefixMatch key depth nodePrefix with
      | .ok len => if len ≠ nodePrefix.length then .mismatch len else
          .matched (depth + nodePrefix.length)
      | .error _ => torn.compared
  | _ => .matched depth

def childOf (key : Key width) (node depth : Nat) (torn : Torn) : Option Nat :=
  match heap.cells node with
  | some (.inner _ layout) =>
    if isLocked (heap.words node) then torn.child.filter (· < heap.next)
    else
      match key.units[depth]? with
      | some unit => layout.getChild unit
      | none => torn.child.filter (· < heap.next)
  | _ => none

def isFull (node : Nat) (torn : Torn) : Bool :=
  match heap.cells node with
  | some (.inner _ layout) => if isLocked (heap.words node) then torn.full else layout.isFull
  | _ => true

end Heap

/-! ### Insertion -/

structure Frame where
  parent : Option (Nat × Nat)
  node : Nat
  depth : Nat
deriving DecidableEq

inductive Change where
  | split (mismatch : Nat)
  | grow (depth : Nat)
  | branch
deriving DecidableEq

inductive InsertPhase where
  | start
  | writeRoot
  | load (frame : Frame)
  | readPrefix (frame : Frame) (v : Nat)
  | readChild (frame : Frame) (v depth : Nat)
  | check (frame : Frame) (v depth : Nat) (child : Option Nat)
  | readFull (frame : Frame) (v depth : Nat)
  | checkParent (frame : Frame) (v depth : Nat) (child : Option Nat)
  | lockParent (frame : Frame) (v : Nat) (change : Change)
  | lockNode (frame : Frame) (v : Nat) (change : Change)
  | lockAdd (frame : Frame) (v depth : Nat)
  | checkLocked (frame : Frame) (depth : Nat)
  | addChild (frame : Frame) (depth : Nat)
  | publish (frame : Frame) (change : Change)
  | unlockNode (node amount : Nat) (parent : Option Nat) (done : Bool)
  | unlockParent (parent : Nat) (done : Bool)
deriving DecidableEq

def Layout.pair (first : KeyUnit) (left : Nat) (second : KeyUnit) (right : Nat) :
    Option (Layout Nat) :=
  (Layout.createNode4.insertChild first left).bind fun layout => layout.insertChild second right

namespace Heap

variable (heap : Heap width V) (key : Key width) (value : V) (frame : Frame)

def link (top : Nat) : Option (Heap width V) :=
  match frame.parent with
  | none => some { heap with root := some top }
  | some (parent, _) =>
    match heap.cells parent, key.units[frame.depth - 1]? with
    | some (.inner nodePrefix layout), some unit =>
      (layout.insertChild unit top).map fun updated => heap.write parent (.inner nodePrefix updated)
    | _, _ => none

def addChild (depth : Nat) : Option (Heap width V) :=
  match heap.cells frame.node with
  | some (.inner nodePrefix layout) => do
    let unit ← key.units[depth]?
    let updated ← layout.insertChild unit heap.next
    some ((heap.alloc (.leaf key value)).write frame.node (.inner nodePrefix updated))
  | _ => none

/-- The writes of a change, to the nodes that are locked. -/
def publish : Change → Option (Heap width V)
  | .split mismatch =>
    match heap.cells frame.node with
    | some (.inner nodePrefix layout) => do
      let unit ← key.units[frame.depth + mismatch]?
      let expected ← nodePrefix[mismatch]?
      let pair ← Layout.pair unit heap.next expected frame.node
      (((heap.alloc (.leaf key value)).alloc (.inner (nodePrefix.take mismatch) pair)).write
        frame.node
        (.inner (nodePrefix.drop (mismatch + 1)) layout)).link key frame (heap.next + 1)
    | _ => none
  | .grow depth =>
    match heap.cells frame.node with
    | some (.inner nodePrefix layout) => do
      let unit ← key.units[depth]?
      let grown ← layout.grow
      let updated ← grown.insertChild unit heap.next
      ((heap.alloc (.leaf key value)).alloc (.inner nodePrefix updated)).link key frame
        (heap.next + 1)
    | _ => none
  | .branch =>
    match heap.cells frame.node with
    | some (.leaf key2 _) => do
      let newPrefixLength := sharedFrom key2 key (width - frame.depth) frame.depth
      let unit2 ← key2.units[frame.depth + newPrefixLength]?
      let unit ← key.units[frame.depth + newPrefixLength]?
      let pair ← Layout.pair unit2 frame.node unit heap.next
      ((heap.alloc (.leaf key value)).alloc
      (.inner (key.slice frame.depth newPrefixLength) pair)).link
        key frame (heap.next + 1)
    | _ => none

def descend (v depth : Nat) (child : Option Nat) : Option InsertPhase :=
  match heap.cells frame.node, child with
  | some (.leaf key2 _), _ =>
    if width ≤ frame.depth + sharedFrom key2 key (width - frame.depth) frame.depth then none
    else some (.lockParent frame v .branch)
  | _, some child => some (.load ⟨some (frame.node, v), child, depth + 1⟩)
  | _, none => some .start

end Heap

def finish (done : Bool) : Option InsertPhase := if done then none else some .start

def Change.unlocks : Change → Nat
  | .grow _ => 3
  | _ => 2

def insertStep (heap : Heap width V) (key : Key width) (value : V) (torn : Torn) :
    InsertPhase → Option (Heap width V × Option InsertPhase)
  | .start =>
    match heap.root with
    | none => some (heap, some .writeRoot)
    | some node => some (heap, some (.load ⟨none, node, 0⟩))
  | .writeRoot => some ({ heap.alloc (.leaf key value) with root := some heap.next }, none)
  | .load frame =>
    let v := heap.words frame.node
    if IsFree v then some (heap, some (.readPrefix frame v)) else some (heap, some .start)
  | .readPrefix frame v =>
    match heap.comparePrefix key frame.node frame.depth torn with
    | .mismatch len => some (heap, some (.lockParent frame v (.split len)))
    | .matched depth => some (heap, some (.readChild frame v depth))
  | .readChild frame v depth =>
    some (heap, some (.check frame v depth (heap.childOf key frame.node depth torn)))
  | .check frame v depth child =>
    if heap.words frame.node ≠ v then some (heap, some .start)
    else if child = none ∧ heap.isLeaf frame.node = false then
      some (heap, some (.readFull frame v depth))
    else if frame.parent = none then some (heap, heap.descend key frame v depth child)
    else some (heap, some (.checkParent frame v depth child))
  | .readFull frame v depth =>
    if heap.isFull frame.node torn then some (heap, some (.lockParent frame v (.grow depth)))
    else some (heap, some (.lockAdd frame v depth))
  | .checkParent frame v depth child =>
    match frame.parent with
    | some (parent, parentVersion) =>
      if heap.words parent ≠ parentVersion then some (heap, some .start)
      else some (heap, heap.descend key frame v depth child)
    | none => some (heap, heap.descend key frame v depth child)
  | .lockParent frame v change =>
    match frame.parent with
    | some (parent, parentVersion) =>
      match heap.lock parent parentVersion with
      | some heap => some (heap, some (.lockNode frame v change))
      | none => some (heap, some .start)
    | none => some (heap, some (.lockNode frame v change))
  | .lockNode frame v change =>
    match heap.lock frame.node v, frame.parent with
    | some heap, _ => some (heap, some (.publish frame change))
    | none, some (parent, _) => some (heap, some (.unlockParent parent false))
    | none, none => some (heap, some .start)
  | .lockAdd frame v depth =>
    match heap.lock frame.node v with
    | some heap => some (heap, some (.checkLocked frame depth))
    | none => some (heap, some .start)
  | .checkLocked frame depth =>
    match frame.parent with
    | some (parent, parentVersion) =>
      if heap.words parent ≠ parentVersion then
        some (heap, some (.unlockNode frame.node 2 none false))
      else some (heap, some (.addChild frame depth))
    | none => some (heap, some (.addChild frame depth))
  | .addChild frame depth =>
    (heap.addChild key value frame depth).map fun heap =>
    (heap, some (.unlockNode frame.node 2 none true))
  | .publish frame change =>
    (heap.publish key value frame change).map fun heap =>
      (heap, some (.unlockNode frame.node change.unlocks (frame.parent.map Prod.fst) true))
  | .unlockNode node amount parent done =>
    match parent with
    | some parent => some (heap.count node amount, some (.unlockParent parent done))
    | none => some (heap.count node amount, finish done)
  | .unlockParent parent done => some (heap.count parent 2, finish done)

/-! ### Lookup -/

/-- Where a lookup is in its steps. `seen` is the word at the validation of `v`. -/
inductive FindPhase where
  | start
  | first (node : Nat)
  | load (node : Nat) (parent : Option (Nat × Nat)) (depth : Nat)
  | checkParent (node v : Nat) (parent : Nat × Nat) (depth : Nat)
  | validate (node v depth : Nat)
  | usePrefix (node v seen depth : Nat)
  | useChild (node v seen depth : Nat)
  | last (node v : Nat) (result : Option Nat)
deriving DecidableEq

def findStep (heap : Heap width V) (key : Key width) (torn : Torn) : FindPhase →
    Option (FindPhase ⊕ Option Nat)
  | .start =>
    match heap.root with
    | none => some (.inr none)
    | some node => some (.inl (.first node))
  | .first node =>
    if IsFree (heap.words node) then some (.inl (.load node none 0)) else some (.inl .start)
  | .load node parent depth =>
    -- `readLockOrRestart` sets `needRestart` here, and the next check sets it anew
    match parent with
    | some parent => some (.inl (.checkParent node (heap.words node) parent depth))
    | none => some (.inl (.validate node (heap.words node) depth))
  | .checkParent node v parent depth =>
    if parent.2 ≠ heap.words parent.1 then some (.inl .start) else
      some (.inl (.validate node v depth))
  | .validate node v depth =>
    if v ≠ heap.words node then some (.inl .start)
      else some (.inl (.usePrefix node v (heap.words node) depth))
  | .usePrefix node v seen depth =>
    match heap.cells node with
    | some (.leaf stored _) => some (.inl (.last node v (if key = stored then some node else none)))
    | _ =>
      match heap.comparePrefix key node depth torn with
      | .mismatch _ => some (.inl (.last node v none))
      | .matched depth => some (.inl (.useChild node v seen depth))
  | .useChild node v _ depth =>
    -- a missing child is unlocked through the null pointer
    (heap.childOf key node depth torn).map fun child =>
      .inl (.load child (some (node, v)) (depth + 1))
  | .last node v result =>
    if v ≠ heap.words node then some (.inl .start) else some (.inr result)

/-! ### The machine -/

/-- A thread. Between two calls, it has what its last lookup found. -/
inductive Thread (width : Nat) (V : Type) where
  | idle (found : Option Nat)
  | inserting (key : Key width) (value : V) (phase : InsertPhase)
  | finding (key : Key width) (phase : FindPhase)

def Thread.isIdle : Thread width V → Bool
  | .idle _ => true
  | _ => false

/-- The tree and its threads; `inserted` are the keys of the insertions that returned. -/
structure ArtState (T : Type) (width : Nat) (V : Type) where
  heap : Heap width V
  threads : T → Thread width V
  inserted : List (Key width)

/-- The call of a thread, or its next step. -/
inductive ArtAction (T : Type) (width : Nat) (V : Type) where
  | insert (thread : T) (key : Key width) (value : V)
  | find (thread : T) (key : Key width)
  | step (thread : T) (torn : Torn)

/-- Steps of one thread, none of which reads a node that is being written. -/
def stepsOf {T : Type} (thread : T) (number : Nat) : List (ArtAction T width V) :=
  List.replicate number (.step thread ⟨none, 0, none, false⟩)

variable {T : Type} [DecidableEq T]

namespace ArtState

def initial : ArtState T width V := ⟨.initial, fun _ => .idle none, []⟩

def become (state : ArtState T width V) (thread : T) (phase : Thread width V) :
    ArtState T width V :=
  { state with threads := Function.update state.threads thread phase }

@[simp]
theorem become_self (s : ArtState T width V) (t : T) (p : Thread width V) :
    (s.become t p).threads t = p :=
  Function.update_self ..

theorem become_other (s : ArtState T width V) {t o : T} (hd : o ≠ t)
    (p : Thread width V) : (s.become t p).threads o = s.threads o :=
  Function.update_of_ne hd ..

def advance (state : ArtState T width V) (thread : T) (torn : Torn) : Option (ArtState T width V) :=
  match state.threads thread with
  | .idle _ => none
  | .inserting key value phase =>
    (insertStep state.heap key value torn phase).map fun (heap, phase) =>
      match phase with
      | some phase => { state.become thread (.inserting key value phase) with heap }
      | none => { state.become thread (.idle none) with heap, inserted := state.inserted ++ [key] }
  | .finding key phase =>
    (findStep state.heap key torn phase).map fun
      | .inl phase => state.become thread (.finding key phase)
      | .inr result => state.become thread (.idle result)

def next (state : ArtState T width V) : ArtAction T width V → Option (ArtState T width V)
  | .insert thread key value => some (state.become thread (.inserting key value .start))
  | .find thread key => some (state.become thread (.finding key .start))
  | .step thread torn => state.advance thread torn

/-- A call is made between calls, a step in a call. -/
def enabled (state : ArtState T width V) : ArtAction T width V → Bool
  | .insert thread _ _ | .find thread _ => (state.threads thread).isIdle
  | .step thread _ => !(state.threads thread).isIdle

end ArtState

/-- **The tree under any number of threads.** -/
def art (T : Type) [DecidableEq T] (width : Nat) (V : Type) :
    Machine (ArtState T width V) (ArtAction T width V) where
  Start := fun state => state = .initial
  Enabled := fun state action => state.enabled action = true
  next := ArtState.next

end Proteus.Oltp.Index
