/-
**The buffer manager's host blocks** (`platform/memory/buffer-manager.cuh` and `.cu`).

Each NUMA node has a stack of free blocks, and each block a reference count. Getting a block pops it
and then counts the reference; releasing one counts it down and pushes the block if it was the last.
Neither is atomic, and references are shared and passed on by their holders meanwhile.

* `Tracked` — the invariant: a block is in its pool, in a call between its two steps, or referenced,
  and its count is the number of its references.
* `Tracked.next` — every step keeps it, and no assertion on the old count fails, as long as the
  count stays an `int`.
* `run_blocks_safe` — so no block is handed out twice, and none is lost.
* `references_overflow_count` — with `2 ^ 31` references to a block the next release fails its
  assertion.
-/

import Proteus.Library.Gather
import Proteus.Library.Machine

namespace Proteus.Platform

open Library List Function

/-! ### The manager -/

/-- Where a thread stands between the two steps of a call. -/
inductive BufferCall (Block : Type) where
  | popped (block : Block)
  | releasing (block : Block)
deriving DecidableEq, Repr

/-- The references of a thread, and its call. -/
structure BufferThread (Block : Type) where
  held : Multiset Block
  call : Option (BufferCall Block)

/-- The managed blocks: the node that a block's address belongs to, and the blocks `init` puts into
each pool. -/
structure BufferManager (Node Block : Type) where
  nodeOf : Block → Node
  blocks : Node → List Block
  nodup : ∀ node, (blocks node).Nodup
  mem_blocks : ∀ node block, block ∈ blocks node ↔ nodeOf block = node

/-- `h_pool_numa`, the top of a stack first, the counts in `buffer_cache`, and the threads. -/
structure BufferState (Node Block ι : Type) where
  pools : Node → List Block
  count : Block → Int
  threads : ι → BufferThread Block

inductive BufferAction (Node Block ι : Type) where
  | pop (thread : ι) (node : Node)
  | acquire (thread : ι)
  | share (thread : ι) (block : Block) (receiver : ι)
  | release (thread : ι) (block : Block)
  | push (thread : ι)
  | pass (thread : ι) (block : Block) (receiver : ι)

/-- An `int`. -/
def wrapInt (value : Int) : Int := (value + 2 ^ 31) % 2 ^ 32 - 2 ^ 31

namespace BufferState

variable {Node Block ι : Type} [DecidableEq Node] [DecidableEq Block] [DecidableEq ι]

def setThread (state : BufferState Node Block ι) (thread : ι) (value : BufferThread Block) :
    BufferState Node Block ι :=
  { state with threads := Function.update state.threads thread value }

def setCount (state : BufferState Node Block ι) (block : Block) (value : Int) :
    BufferState Node Block ι :=
  { state with count := Function.update state.count block value }

def setPool (state : BufferState Node Block ι) (node : Node) (pool : List Block) :
    BufferState Node Block ι :=
  { state with pools := Function.update state.pools node pool }

/-- A thread gets a reference. -/
def give (state : BufferState Node Block ι) (receiver : ι) (block : Block) :
    BufferState Node Block ι :=
  state.setThread receiver { state.threads receiver with
    held := block ::ₘ (state.threads receiver).held }

/-- The first step of `get_buffer_numa`. -/
def pop (state : BufferState Node Block ι) (thread : ι) (node : Node) :
    Option (BufferState Node Block ι) :=
  match state.pools node with
  | [] => none
  | block :: rest =>
    some ((state.setPool node rest).setThread thread { state.threads thread with
      call := some (.popped block) })

/-- Its second step, with the two assertions. -/
def acquire (state : BufferState Node Block ι) (thread : ι) : Option (BufferState Node Block ι) :=
  match (state.threads thread).call with
  | some (.popped block) =>
    let old := state.count block
    if old ≤ 0 ∧ old ≥ 0 then
      some ((state.setCount block (wrapInt (old + 1))).setThread thread
        ⟨block ::ₘ (state.threads thread).held, none⟩)
    else none
  | _ => none

/-- `share_host_buffer`. -/
def share (state : BufferState Node Block ι) (block : Block) (receiver : ι) :
    Option (BufferState Node Block ι) :=
  let oldcnt := state.count block
  if oldcnt ≠ 0 then some ((state.setCount block (wrapInt (oldcnt + 1))).give receiver block) else
    none

/-- The first step of `__release_buffer_host`. -/
def release (state : BufferState Node Block ι) (thread : ι) (block : Block) :
    Option (BufferState Node Block ι) :=
  let occ := state.count block
  if occ ≥ 1 then
    some ((state.setCount block (wrapInt (occ - 1))).setThread thread
      ⟨(state.threads thread).held.erase block, if occ = 1 then some (.releasing block) else none⟩)
  else none

/-- Its second step. -/
def push (state : BufferState Node Block ι) (nodeOf : Block → Node) (thread : ι) :
    Option (BufferState Node Block ι) :=
  match (state.threads thread).call with
  | some (.releasing block) =>
    some ((state.setPool (nodeOf block) (block :: state.pools (nodeOf block))).setThread thread
      { state.threads thread with call := none })
  | _ => none

/-- A thread gives a reference to another. -/
def pass (state : BufferState Node Block ι) (thread : ι) (block : Block) (receiver : ι) :
    BufferState Node Block ι :=
  (state.setThread thread { state.threads thread with
    held := (state.threads thread).held.erase block }).give
    receiver block

end BufferState

namespace BufferManager

variable {Node Block ι : Type} [DecidableEq Node] [DecidableEq Block] [DecidableEq ι]

/-- When a step can be taken: `pop` waits for a block, and who shares, passes on or releases a
reference holds it. -/
def Enabled (state : BufferState Node Block ι) : BufferAction Node Block ι → Prop
  | .pop thread node => (state.threads thread).call = none ∧ state.pools node ≠ []
  | .acquire thread => ∃ block, (state.threads thread).call = some (.popped block)
  | .share thread block _ | .release thread block | .pass thread block _ =>
    (state.threads thread).call = none ∧ block ∈ (state.threads thread).held
  | .push thread => ∃ block, (state.threads thread).call = some (.releasing block)

instance [Fintype Block] (state : BufferState Node Block ι) (action : BufferAction Node Block ι) :
    Decidable (Enabled state action) :=
  match action with
  | .pop _ _ | .share _ _ _ | .release _ _ | .pass _ _ _ => inferInstanceAs (Decidable (_ ∧ _))
  | .acquire _ | .push _ => inferInstanceAs (Decidable (∃ _, _))

/-- A step; it fails with an assertion. -/
def next (manager : BufferManager Node Block) (state : BufferState Node Block ι) :
    BufferAction Node Block ι → Option (BufferState Node Block ι)
  | .pop thread node => state.pop thread node
  | .acquire thread => state.acquire thread
  | .share _ block receiver => state.share block receiver
  | .release thread block => state.release thread block
  | .push thread => state.push manager.nodeOf thread
  | .pass thread block receiver => some (state.pass thread block receiver)

/-- The manager after `init`, with any number of threads. -/
def machine (manager : BufferManager Node Block) (ι : Type) [DecidableEq ι] :
    Machine (BufferState Node Block ι) (BufferAction Node Block ι) where
  Start state := state = ⟨manager.blocks, fun _ => 0, fun _ => ⟨0, none⟩⟩
  Enabled := Enabled
  next := manager.next

instance decidableMachineEnabled [Fintype Block] (manager : BufferManager Node Block)
    (state : BufferState Node Block ι)
    (action : BufferAction Node Block ι) : Decidable ((manager.machine ι).Enabled state action) :=
  inferInstanceAs (Decidable (Enabled state action))

end BufferManager

/-! ### What the manager is for -/

section

variable {Node Block ι : Type} [DecidableEq Block] [Fintype ι]

/-- All references. -/
def BufferState.refs (state : BufferState Node Block ι) : Multiset Block :=
  gather BufferThread.held state.threads

structure BufferManager.BlocksSafe (manager : BufferManager Node Block)
    (state : BufferState Node Block ι) :
    Prop where
  unheld : ∀ node, ∀ block ∈ state.pools node, ∀ thread, block ∉ (state.threads thread).held
  once : ∀ node, ∀ block ∈ state.pools node, node = manager.nodeOf block ∧
    (state.pools node).count block = 1
  returned : ∀ block, (∀ thread, block ∉ (state.threads thread).held ∧
    (state.threads thread).call ≠ some (.popped block) ∧
    (state.threads thread).call ≠ some (.releasing block)) →
    block ∈ state.pools (manager.nodeOf block)

/-- There are fewer references to each block than an `int` can count. -/
def Countable (state : BufferState Node Block ι) : BufferAction Node Block ι → Prop
  | .share _ block _ => state.refs.count block + 1 < 2 ^ 31
  | _ => True

instance (state : BufferState Node Block ι) (action : BufferAction Node Block ι) :
    Decidable (Countable state action) :=
  match action with
  | .share _ _ _ => inferInstanceAs (Decidable (_ < _))
  | .pop _ _ | .acquire _ | .release _ _ | .push _ | .pass _ _ _ => inferInstanceAs (Decidable True)

end

/-! ### The invariant -/

open BufferThread BufferManager

section

variable {Node Block ι : Type} [Fintype ι] {manager : BufferManager Node Block}
    {state after a : BufferState Node Block ι}

/-- The block of a call. -/
def BufferThread.inCall (thread : BufferThread Block) : Multiset Block :=
  match thread.call with
  | some (.popped block) | some (.releasing block) => {block}
  | none => 0

variable {block : Block} {t : ι}

theorem BufferThread.mem_inCall {t : BufferThread Block} (hm : block ∈ t.inCall) :
    t.call = some (.popped block) ∨ t.call = some (.releasing block) := by
  unfold inCall at hm
  split at hm
  · rw [Multiset.mem_singleton.mp hm]
    exact .inl ‹_›
  · rw [Multiset.mem_singleton.mp hm]
    exact .inr ‹_›
  · exact absurd hm (Multiset.notMem_zero block)

def BufferState.calls (state : BufferState Node Block ι) : Multiset Block :=
  gather BufferThread.inCall state.threads

section

variable [DecidableEq ι]

theorem refs_give (state : BufferState Node Block ι) (r : ι) (block : Block) :
    (state.give r block).refs = state.refs + {block} := by
  refine gather_update_add ?_
  show block ::ₘ (state.threads r).held = (state.threads r).held + _
  rw [add_comm, Multiset.singleton_add]

theorem calls_give (state : BufferState Node Block ι) (r : ι) (block : Block) :
    (state.give r block).calls = state.calls :=
  gather_update_same rfl

end

variable [DecidableEq Block]

def BufferManager.pooled (manager : BufferManager Node Block) (state : BufferState Node Block ι)
    (block : Block) :
    Nat :=
  (state.pools (manager.nodeOf block)).count block

structure Tracked (manager : BufferManager Node Block) (state : BufferState Node Block ι) :
    Prop where
  counts : ∀ block, state.count block = state.refs.count block
  small : ∀ block, state.refs.count block < 2 ^ 31
  homes : ∀ node, ∀ block ∈ state.pools node, manager.nodeOf block = node
  place : ∀ block, manager.pooled state block + state.calls.count block + min 1
    (state.refs.count block) = 1

theorem wrapInt_eq {v : Int} (low : 0 ≤ v) (hh : v < 2 ^ 31) : wrapInt v = v := by
  unfold wrapInt
  omega

theorem Tracked.initial (manager : BufferManager Node Block) :
    Tracked manager (⟨manager.blocks, fun _ => 0, fun _ => ⟨0, none⟩⟩ :
        BufferState Node Block ι) := by
  have hr : (⟨manager.blocks, fun _ => 0, fun _ => ⟨0, none⟩⟩ : BufferState Node Block ι).refs =
      0 :=
    gather_eq_zero fun _ => rfl
  have hc : (⟨manager.blocks, fun _ => 0, fun _ => ⟨0, none⟩⟩ : BufferState Node Block ι).calls =
      0 :=
    gather_eq_zero fun _ => rfl
  refine ⟨fun block => ?_, fun block => ?_, fun n block hm => ?_, fun block => ?_⟩
  · rw [hr, Multiset.count_zero]
    rfl
  · rw [hr, Multiset.count_zero]
    norm_num
  · exact (manager.mem_blocks n block).mp hm
  · rw [hr, hc, Multiset.count_zero]
    exact count_eq_one_of_mem (manager.nodup _) ((manager.mem_blocks _ block).mpr rfl)

/-- **A step is about one block**: the others stay where they are. -/
theorem Tracked.moved (ht : Tracked manager state) (block : Block)
    (hco : ∀ o, o ≠ block → a.count o = state.count o)
    (hr : ∀ o, o ≠ block → a.refs.count o = state.refs.count o)
    (hca : ∀ o, o ≠ block → a.calls.count o = state.calls.count o)
    (hpo : ∀ o, o ≠ block → manager.pooled a o = manager.pooled state o)
    (hh : ∀ n, ∀ o ∈ a.pools n, manager.nodeOf o = n)
    (hc : a.count block = a.refs.count block) (hsm : a.refs.count block < 2 ^ 31)
    (hp : manager.pooled a block + a.calls.count block + min 1 (a.refs.count block) = 1) :
    Tracked manager a := by
  refine ⟨fun o => ?_, fun o => ?_, hh, fun o => ?_⟩ <;> by_cases hs : o = block
  · rw [hs]
    exact hc
  · rw [hco o hs, hr o hs]
    exact ht.counts o
  · rw [hs]
    exact hsm
  · rw [hr o hs]
    exact ht.small o
  · rw [hs]
    exact hp
  · rw [hpo o hs, hca o hs, hr o hs]
    exact ht.place o

theorem count_add_self (bs : Multiset Block) (block : Block) :
    (bs + {block}).count block = bs.count block + 1 := by
  rw [Multiset.count_add, Multiset.count_singleton_self]

theorem count_add_ne (bs : Multiset Block) {o : Block} (hd : o ≠ block) :
    (bs + {block}).count o = bs.count o := by
  rw [Multiset.count_add, Multiset.count_singleton, if_neg hd, Nat.add_zero]

theorem Tracked.of_call (htr : Tracked manager state) (hic : block ∈ (state.threads t).inCall) :
    manager.pooled state block = 0 ∧ state.calls.count block = 1 ∧ state.refs.count block = 0 := by
  have ht : 0 < state.calls.count block := Multiset.count_pos.mpr (mem_gather.mpr ⟨t, hic⟩)
  have hp := htr.place block
  omega

theorem Tracked.of_held (htr : Tracked manager state) (hh : block ∈ (state.threads t).held) :
    manager.pooled state block = 0 ∧ state.calls.count block = 0 ∧ 0 < state.refs.count block := by
  have ht : 0 < state.refs.count block := Multiset.count_pos.mpr (mem_gather.mpr ⟨t, hh⟩)
  have hp := htr.place block
  omega

theorem held_eq_erase {bs : Multiset Block} (hh : block ∈ bs) : bs = bs.erase block + {block} := by
  rw [add_comm, Multiset.singleton_add, Multiset.cons_erase hh]

theorem Tracked.blocksSafe (htr : Tracked manager state) : manager.BlocksSafe state := by
  have hho : ∀ n, ∀ block ∈ state.pools n, 0 < manager.pooled state block := by
    intro n block hm
    unfold pooled
    rw [htr.homes n block hm]
    exact count_pos_iff.mpr hm
  refine ⟨fun n block hm t hh => ?_, fun n block hm => ?_, fun block hf => ?_⟩
  · have ht := hho n block hm
    have hg := (htr.of_held hh).1
    omega
  · have ht := hho n block hm
    have hp := htr.place block
    have hs := htr.homes n block hm
    refine ⟨hs.symm, ?_⟩
    unfold pooled at ht hp
    rw [hs] at ht hp
    omega
  · have hun : state.refs.count block = 0 := by
      refine Multiset.count_eq_zero.mpr fun hm => ?_
      obtain ⟨t, hh⟩ := mem_gather.mp hm
      exact (hf t).1 hh
    have hu : state.calls.count block = 0 := by
      refine Multiset.count_eq_zero.mpr fun hm => ?_
      obtain ⟨t, hic⟩ := mem_gather.mp hm
      rcases mem_inCall hic with hpo | hr
      · exact (hf t).2.1 hpo
      · exact (hf t).2.2 hr
    have hp := htr.place block
    rw [hun, hu] at hp
    refine count_pos_iff.mp ?_
    unfold pooled at hp
    omega

/-! ### The steps -/

variable [DecidableEq ι]

/-- **The second step of a get**: its assertions hold. -/
theorem Tracked.acquire (ht : Tracked manager state)
    (hca : (state.threads t).call = some (.popped block)) :
    ∃ after, state.acquire t = some after ∧ Tracked manager after := by
  have inCall : (state.threads t).inCall = {block} := by rw [inCall, hca]
  obtain ⟨hp, hcd, hf⟩ := ht.of_call (inCall ▸ Multiset.mem_singleton_self block)
  have hz : state.count block = 0 := by rw [ht.counts, hf]; rfl
  unfold BufferState.acquire
  rw [hca]
  simp only [hz, le_refl, and_self, if_true]
  refine ⟨_, rfl, ?_⟩
  set after := (state.setCount block (wrapInt (0 + 1))).setThread t
    ⟨block ::ₘ (state.threads t).held, none⟩
  have refs : after.refs = state.refs + {block} := by
    refine gather_update_add ?_
    show block ::ₘ (state.threads t).held = (state.threads t).held + _
    rw [add_comm, Multiset.singleton_add]
  have calls : after.calls + {block} = state.calls := by
    refine gather_update_sub ?_
    show (state.threads t).inCall = 0 + _
    rw [inCall, zero_add]
  have count : after.count block = wrapInt (0 + 1) := update_self ..
  refine ht.moved block (fun o hd => update_of_ne hd ..) (fun o hd => ?refs) (fun o hd => ?calls)
    (fun _ _ => rfl) ht.homes ?count ?small ?place
  case refs => rw [refs, count_add_ne _ hd]
  case calls => rw [← calls, count_add_ne _ hd]
  case count =>
    rw [count, refs, count_add_self, hf, wrapInt_eq (by norm_num) (by norm_num)]
    rfl
  case small => rw [refs, count_add_self, hf]; norm_num
  case place =>
    have hl : after.calls.count block = 0 := by
      rw [← calls, count_add_self] at hcd
      omega
    rw [refs, count_add_self, hl, hf]
    show manager.pooled state block + _ + _ = _
    rw [hp]
    rfl

section

variable (tracked : Tracked manager state)

include tracked

/-- **A share**: its assertion holds. -/
theorem Tracked.share {r : ι} (hh : block ∈ (state.threads t).held)
    (hco : state.refs.count block + 1 < 2 ^ 31) :
    ∃ after, state.share block r = some after ∧ Tracked manager after := by
  obtain ⟨hpo, hcl, hp⟩ := tracked.of_held hh
  have old := tracked.counts block
  have hn : state.count block ≠ 0 := by omega
  unfold BufferState.share
  simp only [if_pos hn]
  refine ⟨_, rfl, ?_⟩
  have refs := refs_give (state.setCount block (wrapInt (state.count block + 1))) r block
  have calls := calls_give (state.setCount block (wrapInt (state.count block + 1))) r block
  have hs : (state.setCount block (wrapInt (state.count block + 1))).refs = state.refs := rfl
  have hst : (state.setCount block (wrapInt (state.count block + 1))).calls = state.calls := rfl
  have count : ((state.setCount block (wrapInt (state.count block + 1))).give r block).count block =
      wrapInt (state.count block + 1) := update_self ..
  rw [hs] at refs
  rw [hst] at calls
  refine tracked.moved block (fun o hd => update_of_ne hd ..)
    (fun o hd => ?refs) (fun o _ => ?calls) (fun _ _ => rfl) tracked.homes ?count ?small ?place
  case refs => rw [refs, count_add_ne _ hd]
  case calls => rw [calls]
  case count =>
    rw [count, refs, count_add_self, old, wrapInt_eq (by omega) (by omega)]
    omega
  case small => rw [refs, count_add_self]; exact hco
  case place =>
    rw [refs, calls, count_add_self, hcl]
    show manager.pooled state block + _ + _ = _
    omega

/-- **The first step of a release**: its assertion holds. -/
theorem Tracked.release (hi : (state.threads t).call = none) (hh : block ∈ (state.threads t).held) :
    ∃ after, state.release t block = some after ∧ Tracked manager after := by
  obtain ⟨hpo, hcl, hp⟩ := tracked.of_held hh
  have old := tracked.counts block
  have hle : state.count block ≥ 1 := by omega
  have small := tracked.small block
  unfold BufferState.release
  simp only [if_pos hle]
  refine ⟨_, rfl, ?_⟩
  set after := (state.setCount block (wrapInt (state.count block - 1))).setThread t
    ⟨(state.threads t).held.erase block, if state.count block = 1 then some (.releasing block) else
      none⟩
  have refs : after.refs + {block} = state.refs := by
    refine gather_update_sub ?_
    exact held_eq_erase hh
  have hlf : state.refs.count block = after.refs.count block + 1 := by rw [← refs, count_add_self]
  -- the call goes on where the reference was the last one
  have calls : after.calls = state.calls + if state.count block = 1 then {block} else 0 := by
    refine gather_update_add ?_
    show _ = (state.threads t).inCall + _
    rw [inCall, inCall, hi, zero_add]
    by_cases hl : state.count block = 1
    · simp only [if_pos hl]
    · simp only [if_neg hl]
  have count : after.count block = wrapInt (state.count block - 1) := update_self ..
  refine tracked.moved block (fun o hd => update_of_ne hd ..)
    (fun o hd => ?refs) (fun o hd => ?calls)
    (fun _ _ => rfl) tracked.homes ?count ?small ?place
  case refs => rw [← refs, count_add_ne _ hd]
  case calls =>
    rw [calls]
    split
    · exact count_add_ne _ hd
    · rw [add_zero]
  case count =>
    rw [count, wrapInt_eq (by omega) (by omega)]
    omega
  case small => omega
  case place =>
    show manager.pooled state block + _ + _ = _
    rw [calls]
    by_cases hl : state.count block = 1
    · rw [if_pos hl, count_add_self]
      omega
    · rw [if_neg hl, add_zero]
      omega

theorem Tracked.pass {r : ι} (hh : block ∈ (state.threads t).held) :
    Tracked manager (state.pass t block r) := by
  have hr : (state.pass t block r).refs = state.refs := by
    unfold BufferState.pass
    rw [refs_give]
    refine gather_update_sub ?_
    exact held_eq_erase hh
  have hc : (state.pass t block r).calls = state.calls := by
    unfold BufferState.pass
    rw [calls_give]
    exact gather_update_same rfl
  refine ⟨fun o => ?_, fun o => ?_, tracked.homes, fun o => ?_⟩
  · rw [hr]
    exact tracked.counts o
  · rw [hr]
    exact tracked.small o
  · rw [hr, hc]
    exact tracked.place o

end

variable [DecidableEq Node]

/-- **The first step of a get.** -/
theorem Tracked.pop (ht : Tracked manager state) {n : Node}
    (hi : (state.threads t).call = none) (hn : state.pools n ≠ []) :
    ∃ after, state.pop t n = some after ∧ Tracked manager after := by
  obtain ⟨block, tl, hp⟩ := exists_cons_of_ne_nil hn
  have hho := ht.homes n block (hp ▸ mem_cons_self)
  unfold BufferState.pop
  rw [hp]
  refine ⟨_, rfl, ?_⟩
  have refs : ((state.setPool n tl).setThread t
      { state.threads t with call := some (.popped block) }).refs = state.refs :=
        gather_update_same rfl
  have calls : ((state.setPool n tl).setThread t
      { state.threads t with call := some (.popped block) }).calls = state.calls + {block} := by
    refine gather_update_add ?_
    show _ = (state.threads t).inCall + _
    rw [inCall, inCall, hi, zero_add]
  have hb := ht.place block
  have hpo : manager.pooled state block = tl.count block + 1 := by
    unfold BufferManager.pooled
    rw [hho, hp, count_cons_self]
  refine ht.moved block (fun _ _ => rfl) (fun o _ => ?refs) (fun o hd => ?calls)
    (fun o hd => ?pools) (fun place o hm => ?homes) ?count ?small ?place
  case refs => rw [refs]
  case calls => rw [calls, count_add_ne _ hd]
  case count => rw [refs]; exact ht.counts block
  case small => rw [refs]; exact ht.small block
  case pools =>
    unfold BufferManager.pooled
    show (update state.pools n tl (manager.nodeOf o)).count o = _
    by_cases hh : manager.nodeOf o = n
    · rw [hh, update_self, hp, count_cons_of_ne (Ne.symm hd)]
    · rw [update_of_ne hh]
  case homes =>
    replace hm : o ∈ update state.pools n tl place := hm
    by_cases hh : place = n
    · subst hh
      rw [update_self] at hm
      exact ht.homes place o (hp ▸ mem_cons_of_mem _ hm)
    · rw [update_of_ne hh] at hm
      exact ht.homes place o hm
  case place =>
    have hl : manager.pooled ((state.setPool n tl).setThread t
        { state.threads t with call := some (.popped block) }) block = tl.count block := by
      show (update state.pools n tl (manager.nodeOf block)).count block = _
      rw [hho, update_self]
    rw [refs, calls, hl, count_add_self]
    omega

/-- **The second step of a release.** -/
theorem Tracked.push (ht : Tracked manager state)
    (hc : (state.threads t).call = some (.releasing block)) :
    ∃ after, state.push manager.nodeOf t = some after ∧ Tracked manager after := by
  have inCall : (state.threads t).inCall = {block} := by rw [inCall, hc]
  obtain ⟨hp, hcl, hf⟩ := ht.of_call (inCall ▸ Multiset.mem_singleton_self block)
  unfold BufferState.push
  rw [hc]
  refine ⟨_, rfl, ?_⟩
  set after :=
    (state.setPool (manager.nodeOf block) (block :: state.pools (manager.nodeOf block))).setThread t
    { state.threads t with call := none }
  have refs : after.refs = state.refs := gather_update_same rfl
  have calls : after.calls + {block} = state.calls := by
    refine gather_update_sub ?_
    show (state.threads t).inCall = 0 + _
    rw [inCall, zero_add]
  refine ht.moved block (fun _ _ => rfl) (fun o _ => ?refs) (fun o hd => ?calls)
    (fun o hd => ?pools) (fun n o hm => ?homes) ?count ?small ?place
  case refs => rw [refs]
  case calls => rw [← calls, count_add_ne _ hd]
  case count => rw [refs]; exact ht.counts block
  case small => rw [refs]; exact ht.small block
  case pools =>
    unfold BufferManager.pooled
    show (update state.pools (manager.nodeOf block) _ (manager.nodeOf o)).count o = _
    by_cases hh : manager.nodeOf o = manager.nodeOf block
    · rw [hh, update_self, count_cons_of_ne (Ne.symm hd)]
    · rw [update_of_ne hh]
  case homes =>
    replace hm : o ∈ update state.pools (manager.nodeOf block)
      (block :: state.pools (manager.nodeOf block)) n := hm
    by_cases hh : n = manager.nodeOf block
    · rw [hh, update_self] at hm
      rcases mem_cons.mp hm with hs | he
      · rw [hs, hh]
      · rw [hh]
        exact ht.homes _ o he
    · rw [update_of_ne hh] at hm
      exact ht.homes n o hm
  case place =>
    have hb : manager.pooled after block = manager.pooled state block + 1 := by
      show (update state.pools (manager.nodeOf block) _ (manager.nodeOf block)).count block = _
      rw [update_self, count_cons_self]
      rfl
    have hl : state.calls.count block = after.calls.count block + 1 := by
      rw [← calls, count_add_self]
    rw [refs, hb]
    omega

/-- **Every step** that keeps the count an `int` succeeds and keeps the invariant. -/
theorem Tracked.next (ht : Tracked manager state)
    {a : BufferAction Node Block ι} (he : BufferManager.Enabled state a)
    (hco : Countable state a) :
    ∃ after, manager.next state a = some after ∧ Tracked manager after := by
  cases a with
  | pop t n => exact ht.pop he.1 he.2
  | acquire t =>
    obtain ⟨block, hc⟩ := he
    exact ht.acquire hc
  | share t block r => exact ht.share he.2 hco
  | release t block => exact ht.release he.1 he.2
  | push t =>
    obtain ⟨block, hc⟩ := he
    exact ht.push hc
  | pass t block r => exact ⟨_, rfl, ht.pass he.2⟩

/-- **Host blocks are never handed out twice.** For every number of threads and every interleaving
of the atomic steps in which fewer than `2 ^ 31` references to a block are held, a block is in a
pool only without a reference, once and in its own pool, and it is there whenever nobody holds it
and no call on it is in progress; and no assertion on an old count fails. -/
theorem run_blocks_safe {actions : List (BufferAction Node Block ι)}
    (run : (manager.machine ι).Run Countable actions state) :
    manager.BlocksSafe state ∧ ∀ action, BufferManager.Enabled state action →
      Countable state action →
      ∃ after, manager.next state action = some after := by
  have htr : Tracked manager state := by
    refine run.invariant (Tracked manager) (fun st hi => ?_) fun b action after hk he ha ht => ?_
    · rw [hi]
      exact Tracked.initial manager
    · obtain ⟨s, hs, htr⟩ := hk.next he ha
      obtain rfl := Option.some_inj.mp (hs.symm.trans ht)
      exact htr
  refine ⟨htr.blocksSafe, fun action he hc => ?_⟩
  obtain ⟨after, hs, _⟩ := htr.next he hc
  exact ⟨after, hs⟩

end

/-! ### Too many references -/

/-- A node with one block. -/
def oneBlock : BufferManager Unit Unit where
  nodeOf := id
  blocks _ := [()]
  nodup _ := List.nodup_singleton ()
  mem_blocks _ _ := by simp

/-- A thread gets the block and shares it with another, and returns its own reference. -/
theorem run_blocks_safe_shared : ∃ state, (oneBlock.machine (Fin 2)).Run Countable
      [.pop 0 (), .acquire 0, .share 0 () 1, .release 0 ()] state ∧ oneBlock.BlocksSafe state := by
  have hr : ∃ state, (oneBlock.machine (Fin 2)).Run Countable
      [.pop 0 (), .acquire 0, .share 0 () 1, .release 0 ()] state :=
    Machine.Run.exists_computed ⟨oneBlock.blocks, fun _ => 0, fun _ => ⟨0, none⟩⟩ rfl
      (by decide +kernel)
  obtain ⟨state, run⟩ := hr
  exact ⟨state, run, (run_blocks_safe run).1⟩

def sharedState (more : Nat) : BufferState Unit Unit Unit :=
  ⟨fun _ => [], fun _ => wrapInt (more + 1), fun _ => ⟨Multiset.replicate (more + 1) (), none⟩⟩

theorem update_unit {α : Type} (f : Unit → α) (v : α) : update f () v = fun _ => v := by
  funext i
  exact update_self ..

theorem sharedState_enabled (m : Nat) : () ∈ ((sharedState m).threads ()).held :=
  Multiset.mem_replicate.mpr ⟨Nat.succ_ne_zero m, rfl⟩

variable {more m : Nat}

open BufferState

theorem share_sharedState (few : m + 1 < 2 ^ 31) :
    (sharedState m).share () () = some (sharedState (m + 1)) := by
  have hw : wrapInt (m + 1) = m + 1 := wrapInt_eq (by omega) (by omega)
  have hn : (sharedState m).count () ≠ 0 := by
    show wrapInt (m + 1) ≠ 0
    omega
  unfold share
  simp only [if_pos hn]
  unfold give setThread setCount sharedState
  simp only [update_unit, hw, Multiset.replicate_succ, Nat.cast_add, Nat.cast_one]

theorem run_sharedState (few : m < 2 ^ 31) :
    ∃ acs, (oneBlock.machine Unit).Run (fun _ _ => True) acs (sharedState m) := by
  induction m with
  | zero =>
    have hp : (oneBlock.machine Unit).next ⟨oneBlock.blocks, fun _ => 0, fun _ => ⟨0, none⟩⟩
      (.pop () ()) = some ⟨fun _ => [], fun _ => 0, fun _ => ⟨0, some (.popped ())⟩⟩ := by
      unfold BufferManager.machine BufferManager.next pop oneBlock setThread setPool
      simp only [update_unit]
    have ha : (oneBlock.machine Unit).next ⟨fun _ => [], fun _ => 0, fun _ =>
      ⟨0, some (.popped ())⟩⟩ (.acquire ()) = some (sharedState 0) := by
      unfold BufferManager.machine BufferManager.next acquire setThread setCount sharedState
      simp only [update_unit]
      rfl
    have hcp : (oneBlock.machine Unit).Enabled ⟨oneBlock.blocks, fun _ => 0, fun _ => ⟨0, none⟩⟩
        (.pop () ()) :=
      ⟨rfl, cons_ne_nil _ _⟩
    have hca : (oneBlock.machine Unit).Enabled ⟨fun _ => [], fun _ => 0, fun _ =>
      ⟨0, some (.popped ())⟩⟩ (.acquire ()) := ⟨(), rfl⟩
    exact ⟨_, ((Machine.Run.start rfl).step hcp trivial hp).step hca trivial ha⟩
  | succ m ih =>
    obtain ⟨acs, run⟩ := ih (by omega)
    have he : (oneBlock.machine Unit).Enabled (sharedState m) (.share () () ()) :=
      ⟨rfl, sharedState_enabled m⟩
    have hs : (oneBlock.machine Unit).next (sharedState m) (.share () () ()) =
        some (sharedState (m + 1)) := by
      rw [← share_sharedState few]
      unfold BufferManager.machine BufferManager.next
      dsimp only
    exact ⟨_, run.step he trivial hs⟩

/-- **An `int` does not count all references**: with `2 ^ 31` of them the count is negative, and the
assertion of the next release fails. -/
theorem references_overflow_count : ∃ actions state,
    (oneBlock.machine Unit).Run (fun _ _ => True) actions state ∧
      state.refs.count () = 2 ^ 31 ∧ BufferManager.Enabled state (.release () ()) ∧
      oneBlock.next state (.release () ()) = none := by
  obtain ⟨more, hf⟩ : ∃ more, more + 1 = 2 ^ 31 := ⟨2 ^ 31 - 1, by norm_num⟩
  obtain ⟨actions, run⟩ := run_sharedState (show more < 2 ^ 31 by omega)
  refine ⟨actions, sharedState more, run, ?refs, ⟨rfl, sharedState_enabled more⟩, ?fails⟩
  case refs =>
    show (gather held (sharedState more).threads).count () = _
    unfold gather
    rw [Finset.univ_unique, Finset.sum_singleton]
    exact (Multiset.count_replicate_self ..).trans hf
  case fails =>
    have hn : ¬ (sharedState more).count () ≥ 1 := by
      show ¬ wrapInt (more + 1) ≥ 1
      unfold wrapInt
      omega
    unfold BufferManager.next release
    simp only [if_neg hn]

end Proteus.Platform
