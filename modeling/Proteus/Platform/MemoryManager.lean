/-
**The memory manager of a device** (`platform/lib/memory/memory-manager.cpp`).

Requests below the size of a unit are cut one after the other from the unit on top of a stack; when
it has no room, a new unit goes on top. A unit counts its blocks and is given up only from the top
of the stack, when the count is zero, so empty units may be buried under others. Larger requests go
to the underlying allocator. Freeing looks the pointer up among the large ones, and else among the
units, by their order.

`fixSize` rounds a request up to 16 bytes in `size_t`: the last fifteen sizes become zero.

* `Kept` — the invariant: blocks are in units or large, at different places, and the counts are
  right.
* `Kept.place`, `Kept.shrink` and the like — what the parts of `malloc` and `free` do to it.
* `run_allocates` — blocks of callers are disjoint, aligned and inside held memory, `free` finds
  their units, the unit on top has a block, and nothing is left when all blocks are freed, as long
  as sizes do not wrap.
* `largest_request_wraps` — a request of `2 ^ 64 - 1` bytes gets a block of none.
-/

import Proteus.Library.Loops
import Proteus.Library.Machine
import Proteus.Library.OrderedMap

namespace Proteus.Platform

open Library List Option

/-! ### The manager -/

def fixSize (bytes : Nat) : Nat :=
  let padded := (max bytes 1 + 0xF) % 2 ^ 64
  padded - padded % 16

/-- `freed_cache_cap` -/
def freedCacheCap : Nat := 16

structure AllocUnitInfo where
  base : Nat
  fill : Nat
  subUnits : Nat
deriving DecidableEq, Repr

def AllocUnitInfo.cut (info : AllocUnitInfo) (bytes : Nat) : AllocUnitInfo :=
  { info with fill := info.fill + bytes, subUnits := info.subUnits + 1 }

/-- A block that a caller has: the pointer, and the size asked for. -/
structure MemBlock where
  pointer : Nat
  size : Nat
deriving DecidableEq, Repr

structure MemState where
  bigUnits : OrderedMap Nat Nat
  units : OrderedMap Nat AllocUnitInfo
  allocations : List Nat
  freeCache : List Nat
  activeBytes : BitVec 64
  held : OrderedMap Nat Nat
  live : List MemBlock

namespace MemState

def allocatorMalloc (state : MemState) (fresh size : Nat) : MemState :=
  { state with held := state.held.emplace fresh size }

def allocatorFree (state : MemState) (ptr : Nat) : Option MemState :=
  match state.held.find ptr with
  | some _ => some { state with held := state.held.erase ptr }
  | none => none

def takeUnit (state : MemState) (unitCap fresh : Nat) : Nat × MemState :=
  match state.freeCache with
  | [] => (fresh, state.allocatorMalloc fresh unitCap)
  | ptr :: rest => (ptr, { state with freeCache := rest })

/-- A unit goes on top. -/
def openUnit (state : MemState) (unitCap ptr : Nat) : MemState :=
  { state with
    activeBytes := state.activeBytes + BitVec.ofNat 64 unitCap
    allocations := ptr :: state.allocations
    units := state.units.emplace ptr ⟨ptr, 0, 0⟩ }

/-- `create_allocation` -/
def createAllocation (state : MemState) (unitCap fresh : Nat) : MemState :=
  (state.takeUnit unitCap fresh).2.openUnit unitCap (state.takeUnit unitCap fresh).1

/-- `destroy_allocation` -/
def destroyAllocation (state : MemState) (unitCap : Nat) : Option MemState :=
  match state.allocations with
  | [] => none
  | base :: rest => do
    let popped := { state with
      allocations := rest, activeBytes := state.activeBytes - BitVec.ofNat 64 unitCap }
    let freed ← if popped.freeCache.length < freedCacheCap
      then some { popped with freeCache := base :: popped.freeCache } else popped.allocatorFree base
    return { freed with units := freed.units.erase base }

def hasRoom (state : MemState) (unitCap bytes : Nat) : Option Bool :=
  match state.allocations with
  | [] => some false
  | latest :: _ => do
    let info ← state.units.find latest
    return decide ((info.fill + bytes) % 2 ^ 64 ≤ unitCap)

/-- The block is cut from the unit on top. -/
def place (state : MemState) (bytes size : Nat) : Option MemState := do
  let base ← state.allocations.head?
  let info ← state.units.find base
  return { state with
    units := state.units.assign base (info.cut bytes)
    live := ⟨info.base + info.fill, size⟩ :: state.live }

/-- `malloc` -/
def malloc (state : MemState) (unitCap size fresh : Nat) : Option MemState :=
  let bytes := fixSize size
  if unitCap ≤ bytes then
    some { state.allocatorMalloc fresh bytes with
      bigUnits := state.bigUnits.emplace fresh bytes
      activeBytes := state.activeBytes + BitVec.ofNat 64 bytes
      live := ⟨fresh, size⟩ :: state.live }
  else do
    let room ← state.hasRoom unitCap bytes
    (if room then state else state.createAllocation unitCap fresh).place bytes size

def shrink (unitCap : Nat) : Nat → MemState → Option MemState
  | 0, state => some state
  | units + 1, state =>
    match state.allocations with
    | [] => some state
    | base :: _ => do
      let info ← state.units.find base
      if info.subUnits = 0 then
        let destroyed ← state.destroyAllocation unitCap
        shrink unitCap units destroyed
      else return state

/-- `free` -/
def free (state : MemState) (unitCap ptr : Nat) : Option MemState :=
  if ptr = 0 then some state
  else
    match state.bigUnits.find ptr with
    | some bytes =>
      { state with
        activeBytes := state.activeBytes - BitVec.ofNat 64 bytes
        bigUnits := state.bigUnits.erase ptr }.allocatorFree ptr
    | none => do
      let (base, info) ← (state.units.upTo ptr).getLast?
      if ptr ≤ info.base + unitCap ∧ 0 < info.subUnits then
        let counted := { state with
          units := state.units.assign base { info with subUnits := info.subUnits - 1 } }
        if info.subUnits - 1 = 0 then shrink unitCap counted.allocations.length counted else
          return counted
      else none

end MemState

inductive MemAction where
  | malloc (size fresh : Nat)
  | free (index : Nat)

/-- Ranges that have no byte in common. -/
def Apart (first size second other : Nat) : Prop := first + size ≤ second ∨ second + other ≤ first

instance (first size second other : Nat) : Decidable (Apart first size second other) :=
  inferInstanceAs (Decidable (_ ∨ _))

def MemState.Fresh (state : MemState) (fresh size : Nat) : Prop :=
  fresh ≠ 0 ∧ 16 ∣ fresh ∧ ∀ range ∈ state.held.entries, Apart range.1 range.2 fresh size

instance (state : MemState) (fresh size : Nat) : Decidable (state.Fresh fresh size) :=
  inferInstanceAs (Decidable (_ ∧ _))

namespace MemManager

def Enabled (unitCap : Nat) (state : MemState) : MemAction → Prop
  | .malloc size fresh => size < 2 ^ 64 ∧
      (unitCap ≤ fixSize size → state.Fresh fresh (fixSize size)) ∧
      (fixSize size < unitCap → state.hasRoom unitCap (fixSize size) = some false →
        state.freeCache = [] →
        state.Fresh fresh unitCap)
  | .free index => index < state.live.length

instance (unitCap : Nat) (state : MemState) (action : MemAction) :
    Decidable (Enabled unitCap state action) :=
  match action with
  | .malloc _ _ => inferInstanceAs (Decidable (_ ∧ _))
  | .free _ => inferInstanceAs (Decidable (_ < _))

/-- A call, and what it does to the blocks of the callers. -/
def next (unitCap : Nat) (state : MemState) : MemAction → Option MemState
  | .malloc size fresh => state.malloc unitCap size fresh
  | .free index => do
    let block ← state.live[index]?
    { state with live := state.live.eraseIdx index }.free unitCap block.pointer

def start : MemState := ⟨.empty, .empty, [], [], 0, .empty, []⟩

def machine (unitCap : Nat) : Machine MemState MemAction where
  Start state := state = start
  Enabled := Enabled unitCap
  next := next unitCap

instance decidableMachineEnabled (unitCap : Nat) (state : MemState) (action : MemAction) :
    Decidable ((machine unitCap).Enabled state action) :=
  inferInstanceAs (Decidable (Enabled unitCap state action))

end MemManager

/-! ### What an allocator is -/

/-- A block is inside a range. -/
def MemBlock.Inside (block : MemBlock) (base size : Nat) : Prop :=
  base ≤ block.pointer ∧ block.pointer + max block.size 1 ≤ base + size

/-- **A correct allocator.** A request of zero bytes gets one of its own. -/
structure MemState.Safe (unitCap : Nat) (state : MemState) : Prop where
  disjoint : state.live.Pairwise fun first second =>
    Apart first.pointer (max first.size 1) second.pointer (max second.size 1)
  aligned : ∀ block ∈ state.live, 16 ∣ block.pointer
  inside : ∀ block ∈ state.live, ∃ base size, state.held.find base = some size ∧
    block.Inside base size
  found : ∀ block ∈ state.live, (∃ bytes, state.bigUnits.find block.pointer = some bytes ∧
      block.Inside block.pointer bytes) ∨
    state.bigUnits.find block.pointer = none ∧ ∃ base info,
      (state.units.upTo block.pointer).getLast? = some (base, info) ∧ block.Inside base unitCap ∧
        0 < info.subUnits
  top : ∀ base ∈ state.allocations.head?, ∃ block ∈ state.live, block.Inside base unitCap
  emptied : state.live = [] → state.units.entries = [] ∧ state.bigUnits.entries = [] ∧
    state.allocations = [] ∧
    state.activeBytes = 0

/-- Rounding the size up does not wrap. -/
def Rounds : MemAction → Prop
  | .malloc size _ => size + 15 < 2 ^ 64
  | .free _ => True

instance (action : MemAction) : Decidable (Rounds action) :=
  match action with
  | .malloc _ _ => inferInstanceAs (Decidable (_ < _))
  | .free _ => inferInstanceAs (Decidable True)

/-! ### The invariant -/

open OrderedMap MemManager

section

variable {unitCap : Nat} {state : MemState}
    {size sz : Nat} {block : MemBlock} {base : Nat} {info i : AllocUnitInfo} {f : Nat}
    {tl : List Nat}

open Nat

theorem fixSize_spec (hr : sz + 15 < 2 ^ 64) : max sz 1 ≤ fixSize sz ∧ 16 ∣ fixSize sz := by
  unfold fixSize
  dsimp only
  rw [mod_eq_of_lt (by omega)]
  omega

/-- The block starts in a unit. -/
def MemBlock.within (unitCap base : Nat) (block : MemBlock) : Bool :=
  base ≤ block.pointer ∧ block.pointer < base + unitCap

def bigBytes (unitCap : Nat) (live : List MemBlock) : Nat :=
  ((live.filter fun block => unitCap ≤ fixSize block.size).map fun block => fixSize block.size).sum

structure MemState.Kept (unitCap : Nat) (state : MemState) : Prop where
  apart : ∀ base size other extent, state.held.find base = some size →
    state.held.find other = some extent →
    base ≠ other → Apart base size other extent
  valid : ∀ base size, state.held.find base = some size → base ≠ 0 ∧ 16 ∣ base ∧ 0 < size
  unitHeld : ∀ base ∈ state.allocations ++ state.freeCache, state.held.find base = some unitCap
  bigHeld : ∀ base size, state.bigUnits.find base = some size → state.held.find base = some size
  nodup : (state.allocations ++ state.freeCache).Nodup
  separate : ∀ base ∈ state.allocations ++ state.freeCache, state.bigUnits.find base = none
  opened : ∀ base, base ∈ state.allocations ↔ ∃ info, state.units.find base = some info
  unit : ∀ base info, state.units.find base = some info → info.base = base ∧ info.fill ≤ unitCap ∧
    16 ∣ info.fill ∧
    info.subUnits = state.live.countP (MemBlock.within unitCap base)
  big : ∀ block ∈ state.live, unitCap ≤ fixSize block.size →
    state.bigUnits.find block.pointer = some (fixSize block.size)
  bigLive : ∀ base size, state.bigUnits.find base = some size →
    ∃ block ∈ state.live, unitCap ≤ fixSize block.size ∧ block.pointer = base
  small : ∀ block ∈ state.live, fixSize block.size < unitCap → ∃ base info,
    state.units.find base = some info ∧
    base ≤ block.pointer ∧ block.pointer + fixSize block.size ≤ base + info.fill
  sized : ∀ block ∈ state.live, 16 ∣ block.pointer ∧ max block.size 1 ≤ fixSize block.size
  disjoint : state.live.Pairwise fun first second =>
    Apart first.pointer (fixSize first.size) second.pointer (fixSize second.size)
  active : state.activeBytes = BitVec.ofNat 64
    (state.allocations.length * unitCap + bigBytes unitCap state.live)

def MemState.TopUsed (unitCap : Nat) (state : MemState) : Prop :=
  ∀ base ∈ state.allocations.head?, 0 < state.live.countP (MemBlock.within unitCap base)

theorem start_kept : start.Kept unitCap where
  apart _ _ _ _ := nofun
  valid _ _ := nofun
  unitHeld _ := nofun
  bigHeld _ _ := nofun
  nodup := nodup_nil
  separate _ := nofun
  opened _ := by simp [start, find, empty]
  unit _ _ := nofun
  big _ := nofun
  bigLive _ _ := nofun
  small _ := nofun
  sized _ := nofun
  disjoint := List.Pairwise.nil
  active := by simp [start, bigBytes]

/-! ### Blocks and ranges -/

section

variable (kept : state.Kept unitCap)

include kept

theorem MemState.Kept.range (hm : block ∈ state.live) :
    ∃ base size, state.held.find base = some size ∧ base ≤ block.pointer ∧
      block.pointer + fixSize block.size ≤ base + size ∧ (base ∈ state.allocations ∨
        state.bigUnits.find base = some size) := by
  by_cases hl : unitCap ≤ fixSize block.size
  · have hf := kept.big block hm hl
    exact ⟨_, _, kept.bigHeld _ _ hf, le_rfl, le_rfl, .inr hf⟩
  · obtain ⟨base, info, hf, low, hh⟩ := kept.small block hm (not_le.mp hl)
    have ho := (kept.opened base).mpr ⟨info, hf⟩
    obtain ⟨-, hfi, -⟩ := kept.unit base info hf
    exact ⟨base, unitCap, kept.unitHeld base (mem_append_left _ ho), low, by omega, .inl ho⟩

theorem MemState.Kept.range_unique (hm : block ∈ state.live)
    {o e : Nat} (hh : state.held.find base = some sz) (low : base ≤ block.pointer)
    (hhi : block.pointer + fixSize block.size ≤ base + sz) (other_held : state.held.find o = some e)
    (hs : o ≤ block.pointer ∧ block.pointer < o + e) : base = o := by
  by_contra hd
  have hp := (kept.sized block hm).2
  rcases kept.apart base sz o e hh other_held hd with hb | ha <;> omega

theorem MemState.Kept.found_held (hf : state.units.find base = some i) :
    state.held.find base = some unitCap :=
  kept.unitHeld base (mem_append_left _ ((kept.opened base).mpr ⟨i, hf⟩))

theorem MemState.Kept.units_apart {o : Nat} {m : AllocUnitInfo}
    (hf : state.units.find base = some i) (other_found : state.units.find o = some m)
    (hd : base ≠ o) : Apart base unitCap o unitCap :=
  kept.apart base unitCap o unitCap (kept.found_held hf) (kept.found_held other_found) hd

theorem MemState.Kept.unused (hh : state.held.find base = some unitCap)
    (hc : base ∉ state.allocations) (hnb : state.bigUnits.find base = none) :
    state.live.countP (MemBlock.within unitCap base) = 0 := by
  rw [countP_eq_zero]
  intro block hm hw
  obtain ⟨own, size, own_held, low, hhi, hp⟩ := kept.range hm
  obtain rfl := kept.range_unique hm own_held low hhi hh (of_decide_eq_true hw)
  rcases hp with ho | big
  · exact hc ho
  · exact ne_of_find big hnb rfl

theorem MemState.Kept.big_outside (hm : block ∈ state.live)
    (hl : unitCap ≤ fixSize block.size) (ho : base ∈ state.allocations) :
    block.within unitCap base = false := by
  refine Bool.eq_false_iff.mpr fun hw => ?_
  have hf := kept.big block hm hl
  have hu := mem_append_left state.freeCache ho
  have hs := kept.range_unique hm (kept.bigHeld _ _ hf) le_rfl le_rfl (kept.unitHeld base hu)
    (of_decide_eq_true hw)
  exact ne_of_find hf (kept.separate base hu) hs

/-! ### New memory -/

theorem MemState.Kept.fresh_absent (ok : state.Fresh f sz) (hp : 0 < sz) :
    state.held.find f = none ∧ f ∉ state.allocations ++ state.freeCache ∧
        state.bigUnits.find f = none := by
  have hab : state.held.find f = none := by
    cases hf : state.held.find f with
    | none => rfl
    | some e =>
      have hr := ok.2.2 (f, e) (mem_of_find hf)
      have hus := (kept.valid f e hf).2.2
      rcases hr with hb | ha <;> omega
  refine ⟨hab, fun hu => ne_of_find (kept.unitHeld f hu) hab rfl, ?_⟩
  cases hf : state.bigUnits.find f with
  | none => rfl
  | some e => exact absurd rfl (ne_of_find (kept.bigHeld f e hf) hab)

theorem MemState.Kept.grow (ok : state.Fresh f sz) (hp : 0 < sz) :
    (state.allocatorMalloc f sz).Kept unitCap := by
  obtain ⟨ha, hc, hnb⟩ := kept.fresh_absent ok hp
  have haw {base e : Nat} (hf : state.held.find base = some e) : Apart base e f sz :=
    ok.2.2 (base, e) (mem_of_find hf)
  refine { kept with
    apart := fun base e o m hfi hs hd => ?_
    valid := fun base e hf => ?_
    unitHeld := fun base hu => find_emplace_of_find ha (kept.unitHeld base hu)
    bigHeld := fun base e hf => find_emplace_of_find ha (kept.bigHeld base e hf) }
  · rcases (find_emplace_iff ha).mp hfi with ⟨own, rfl⟩ | he
    · rcases (find_emplace_iff ha).mp hs with ⟨ht, rfl⟩ | hl
      · exact absurd (own.trans ht.symm) hd
      · rw [own]
        exact Or.symm (haw hl)
    · rcases (find_emplace_iff ha).mp hs with ⟨ht, rfl⟩ | hl
      · rw [ht]
        exact haw he
      · exact kept.apart base e o m he hl hd
  · rcases (find_emplace_iff ha).mp hf with ⟨rfl, rfl⟩ | hf
    · exact ⟨ok.1, ok.2.1, hp⟩
    · exact kept.valid base e hf

variable {ptr : Nat}

theorem MemState.Kept.takeUnit (hp : 0 < unitCap)
    (ok : state.freeCache = [] → state.Fresh f unitCap) {a : MemState}
    (ht : state.takeUnit unitCap f = (ptr, a)) :
    a.Kept unitCap ∧ a.held.find ptr = some unitCap ∧ ptr ∉ a.allocations ++ a.freeCache ∧
      a.bigUnits.find ptr = none := by
  unfold MemState.takeUnit at ht
  split at ht
  · rename_i none
    cases ht
    obtain ⟨ha, hc, hnb⟩ := kept.fresh_absent (ok none) hp
    refine ⟨kept.grow (ok none) hp, ?_, hc, hnb⟩
    exact find_emplace_self ha
  · rename_i c tl hca
    obtain ⟨rfl, rfl⟩ := Prod.mk.inj ht
    have hu : c ∈ state.allocations ++ state.freeCache := by
      rw [hca]
      exact mem_append_right _ mem_cons_self
    have hd := kept.nodup
    rw [hca, nodup_middle, nodup_cons] at hd
    have hf : ∀ base ∈ state.allocations ++ tl, base ∈ state.allocations ++ state.freeCache := by
      intro base hm
      rw [hca]
      rcases mem_append.mp hm with ho | hl
      · exact mem_append_left _ ho
      · exact mem_append_right _ (mem_cons_of_mem _ hl)
    refine ⟨?_, kept.unitHeld c hu, hd.1, kept.separate c hu⟩
    exact { kept with
      unitHeld := fun base hm => kept.unitHeld base (hf base hm)
      nodup := hd.2
      separate := fun base hm => kept.separate base (hf base hm) }

theorem MemState.Kept.find_closed (hc : ptr ∉ state.allocations ++ state.freeCache) :
    state.units.find ptr = none := by
  cases hf : state.units.find ptr with
  | none => rfl
  | some info => exact absurd (mem_append_left _ ((kept.opened ptr).mpr ⟨info, hf⟩)) hc

theorem MemState.Kept.openUnit (hh : state.held.find ptr = some unitCap)
    (hc : ptr ∉ state.allocations ++ state.freeCache) (hnb : state.bigUnits.find ptr = none) :
    (state.openUnit unitCap ptr).Kept unitCap := by
  have hu : ptr ∉ state.allocations := fun ho => hc (mem_append_left _ ho)
  have ha := kept.find_closed hc
  refine { kept with
    unitHeld := forall_mem_cons.mpr ⟨hh, kept.unitHeld⟩
    nodup := nodup_cons.mpr ⟨hc, kept.nodup⟩
    separate := forall_mem_cons.mpr ⟨hnb, kept.separate⟩
    opened := fun base => ?_
    unit := fun base info hf => ?_
    small := fun block hm hl => ?_
    active := ?_ }
  · show base ∈ ptr :: state.allocations ↔ ∃ info, (state.units.emplace ptr _).find base = some info
    rw [find_emplace ha, mem_cons, kept.opened base]
    split_ifs with own
    · exact ⟨fun _ => ⟨_, rfl⟩, fun _ => .inl own⟩
    · exact or_iff_right own
  · rcases (find_emplace_iff ha).mp hf with ⟨rfl, rfl⟩ | hf
    · exact ⟨rfl, zero_le _, dvd_zero _, (kept.unused hh hu hnb).symm⟩
    · exact kept.unit base info hf
  · obtain ⟨base, info, hf, hi⟩ := kept.small block hm hl
    exact ⟨base, info, find_emplace_of_find ha hf, hi⟩
  · show state.activeBytes + BitVec.ofNat 64 unitCap = _
    rw [kept.active, ← BitVec.ofNat_add]
    congr 1
    show _ = (state.allocations.length + 1) * unitCap + bigBytes unitCap state.live
    ring

end

/-! ### New blocks -/

theorem bigBytes_small (block : MemBlock) (hl : fixSize block.size < unitCap) (l : List MemBlock) :
    bigBytes unitCap (block :: l) = bigBytes unitCap l := by
  unfold bigBytes
  rw [filter_cons_of_neg (by simpa using hl)]

theorem bigBytes_big (block : MemBlock) (hl : unitCap ≤ fixSize block.size) (l : List MemBlock) :
    bigBytes unitCap (block :: l) = fixSize block.size + bigBytes unitCap l := by
  unfold bigBytes
  rw [filter_cons_of_pos (by simpa using hl), map_cons, sum_cons]

variable (kept : state.Kept unitCap)

include kept

theorem MemState.Kept.beside (hf : state.units.find base = some i) (hm : block ∈ state.live) :
    block.pointer + fixSize block.size ≤ base + i.fill ∨ base + unitCap ≤ block.pointer := by
  have hp := (kept.sized block hm).2
  have ho := (kept.opened base).mpr ⟨i, hf⟩
  have hh := kept.unitHeld base (mem_append_left _ ho)
  by_cases hl : unitCap ≤ fixSize block.size
  · have hou := kept.big_outside hm hl ho
    obtain ⟨o, e, other_held, low, hhi, -⟩ := kept.range hm
    by_cases hs : o = base
    · subst hs
      rw [hh] at other_held
      cases other_held
      rw [MemBlock.within, decide_eq_false_iff_not] at hou
      exact absurd ⟨low, by omega⟩ hou
    · rcases kept.apart _ _ _ _ hh other_held (Ne.symm hs) with hb | ha <;> omega
  · obtain ⟨u, unit_info, unit_found, low, hhi⟩ := kept.small block hm (not_le.mp hl)
    obtain ⟨-, hfi, -⟩ := kept.unit u unit_info unit_found
    by_cases hs : u = base
    · subst hs
      rw [hf] at unit_found
      cases unit_found
      exact .inl hhi
    · rcases kept.units_apart hf unit_found (Ne.symm hs) with hb | ha <;> omega

/-- **A block is cut** from the free part of the unit on top. -/
theorem MemState.Kept.place (hro : sz + 15 < 2 ^ 64) (hli : fixSize sz < unitCap)
    (top : state.allocations.head? = some base)
    (hf : state.units.find base = some i) (hr : i.fill + fixSize sz ≤ unitCap) :
    ∃ a, state.place (fixSize sz) sz = some a ∧ a.Kept unitCap ∧ a.TopUsed unitCap := by
  obtain ⟨own, -, hal, hc⟩ := kept.unit base i hf
  obtain ⟨he, hfx⟩ := fixSize_spec hro
  have hh := kept.found_held hf
  have hlo {o : Nat} {x : AllocUnitInfo} :
      (state.units.assign base (i.cut (fixSize sz))).find o = some x ↔ _ :=
    find_assign_iff hf
  have hiu : (⟨base + i.fill, sz⟩ : MemBlock).within unitCap base = true := by
    refine decide_eq_true ⟨Nat.le_add_right .., ?_⟩
    show base + i.fill < base + unitCap
    omega
  have hio {o : Nat} {m : AllocUnitInfo} (hd : o ≠ base)
      (other_found : state.units.find o = some m) :
      (⟨base + i.fill, sz⟩ : MemBlock).within unitCap o = false := by
    refine Bool.eq_false_iff.mpr fun hw => ?_
    have hst : o ≤ base + i.fill ∧ base + i.fill < o + unitCap := of_decide_eq_true hw
    rcases kept.units_apart hf other_found hd.symm with hb | a <;> omega
  have ha : ∀ block ∈ state.live, Apart (base + i.fill) (fixSize sz) block.pointer
      (fixSize block.size) := by
    intro block hm
    rcases kept.beside hf hm with hb | a
    · exact .inr hb
    · exact .inl (by omega)
  refine ⟨{ state with
    units := state.units.assign base (i.cut (fixSize sz))
    live := ⟨base + i.fill, sz⟩ :: state.live }, ?_,
    { kept with
      opened := fun o => (kept.opened o).trans (exists_find_assign hf).symm
      unit := fun o other_info other_found => ?_
      big := forall_mem_cons.mpr ⟨fun hl => absurd hl (not_le.mpr hli), kept.big⟩
      bigLive := fun o e big => ?_
      small := forall_mem_cons.mpr ⟨fun _ => ?_, fun block hm hsm => ?_⟩
      sized := forall_mem_cons.mpr ⟨⟨dvd_add (kept.valid base unitCap hh).2.1 hal, he⟩, kept.sized⟩
      disjoint := pairwise_cons.mpr ⟨ha, kept.disjoint⟩
      active := ?_ }, fun o other_top => ?_⟩
  · unfold MemState.place
    rw [top, bind_eq_bind, bind_some, hf, bind_eq_bind, bind_some, own]
    rfl
  · rcases hlo.mp other_found with ⟨rfl, rfl⟩ | ⟨hd, other_found⟩
    · refine ⟨own, hr, dvd_add hal hfx, ?_⟩
      show i.subUnits + 1 = _
      rw [countP_cons_of_pos hiu, hc]
    · obtain ⟨base_eq, hfi, fill_aligned, other_count⟩ := kept.unit o other_info other_found
      refine ⟨base_eq, hfi, fill_aligned, ?_⟩
      rw [countP_cons_of_neg (by rw [hio hd other_found]; exact Bool.false_ne_true)]
      exact other_count
  · obtain ⟨block, hm, hl⟩ := kept.bigLive o e big
    exact ⟨block, mem_cons_of_mem _ hm, hl⟩
  · refine ⟨base, _, hlo.mpr (.inl ⟨rfl, rfl⟩), Nat.le_add_right .., ?_⟩
    show base + i.fill + fixSize sz ≤ base + (i.fill + fixSize sz)
    omega
  · obtain ⟨u, unit_info, unit_found, low, hhi⟩ := kept.small block hm hsm
    by_cases hs : u = base
    · subst hs
      obtain rfl := some.inj (hf.symm.trans unit_found)
      refine ⟨u, _, hlo.mpr (.inl ⟨rfl, rfl⟩), low, hhi.trans ?_⟩
      show u + i.fill ≤ u + (i.fill + fixSize sz)
      omega
    · exact ⟨u, unit_info, hlo.mpr (.inr ⟨hs, unit_found⟩), low, hhi⟩
  · show state.activeBytes = BitVec.ofNat 64 (state.allocations.length * unitCap +
        bigBytes unitCap (⟨base + i.fill, sz⟩ :: state.live))
    rw [bigBytes_small ⟨base + i.fill, sz⟩ hli]
    exact kept.active
  · obtain rfl := some.inj (top.symm.trans other_top)
    show 0 < (_ :: state.live).countP (MemBlock.within unitCap base)
    rw [countP_cons_of_pos hiu]
    exact Nat.succ_pos _

/-- **A large block** has a range of its own. -/
theorem MemState.Kept.addBig (hr : sz + 15 < 2 ^ 64)
    (hl : unitCap ≤ fixSize sz) (ok : state.Fresh f (fixSize sz)) :
    { state.allocatorMalloc f (fixSize sz) with
      bigUnits := state.bigUnits.emplace f (fixSize sz)
      activeBytes := state.activeBytes + BitVec.ofNat 64 (fixSize sz)
      live := ⟨f, sz⟩ :: state.live }.Kept unitCap := by
  obtain ⟨he, -⟩ := fixSize_spec hr
  have hp : 0 < fixSize sz := by omega
  obtain ⟨hab, hcl, hnb⟩ := kept.fresh_absent ok hp
  have hg := kept.grow ok hp
  have haw {base e : Nat} (hf : state.held.find base = some e) :
      Apart base e f (fixSize sz) := ok.2.2 (base, e) (mem_of_find hf)
  refine { hg with
    bigHeld := fun base e hf => ?_
    separate := fun base hu => ?_
    unit := fun base info hf => ?_
    big := forall_mem_cons.mpr ⟨fun _ => find_emplace_self hnb, fun block hm big =>
      find_emplace_of_find hnb (kept.big block hm big)⟩
    bigLive := fun base e hf => ?_
    small := forall_mem_cons.mpr ⟨fun hli => absurd hli (not_lt.mpr hl), kept.small⟩
    sized := forall_mem_cons.mpr ⟨⟨ok.2.1, he⟩, kept.sized⟩
    disjoint := pairwise_cons.mpr ⟨fun block hm => ?_, kept.disjoint⟩
    active := ?_ }
  · rcases (find_emplace_iff hnb).mp hf with ⟨rfl, rfl⟩ | hf
    · exact find_emplace_self hab
    · exact hg.bigHeld base e hf
  · show (state.bigUnits.emplace f (fixSize sz)).find base = none
    rw [find_emplace hnb, if_neg]
    · exact kept.separate base hu
    · intro own
      exact hcl (own ▸ hu)
  · obtain ⟨own, hfi, hal, hc⟩ := kept.unit base info hf
    refine ⟨own, hfi, hal, ?_⟩
    rw [countP_cons_of_neg]
    · exact hc
    · intro hw
      have hs : base ≤ f ∧ f < base + unitCap := of_decide_eq_true hw
      rcases haw (kept.found_held hf) with hb | ha <;> omega
  · rcases (find_emplace_iff hnb).mp hf with ⟨own, rfl⟩ | hf
    · exact ⟨_, mem_cons_self, hl, own.symm⟩
    · obtain ⟨block, hm, big⟩ := kept.bigLive base e hf
      exact ⟨block, mem_cons_of_mem _ hm, big⟩
  · show Apart f (fixSize sz) block.pointer (fixSize block.size)
    obtain ⟨base, e, hh, low, hhi, -⟩ := kept.range hm
    rcases haw hh with hb | ha
    · exact .inr (by omega)
    · exact .inl (by omega)
  · show state.activeBytes + BitVec.ofNat 64 (fixSize sz) = BitVec.ofNat 64
        (state.allocations.length * unitCap + bigBytes unitCap (⟨f, sz⟩ :: state.live))
    rw [kept.active, ← BitVec.ofNat_add, bigBytes_big ⟨f, sz⟩ hl]
    congr 1
    show _ = _ + (fixSize sz + _)
    omega

open MemState

theorem MemState.Kept.hasRoom_eq
    (top : state.allocations = base :: tl) (bs : Nat) : ∃ info, state.units.find base = some info ∧
      state.hasRoom unitCap bs = some (decide ((info.fill + bs) % 2 ^ 64 ≤ unitCap)) := by
  obtain ⟨info, hf⟩ := (kept.opened base).mp (by rw [top]; exact mem_cons_self)
  refine ⟨info, hf, ?_⟩
  unfold hasRoom
  rw [top]
  simp only [hf, bind_eq_bind, bind_some]
  rfl

/-- **A request keeps the invariant.** -/
theorem MemState.Kept.malloc (hu : state.TopUsed unitCap) (hm : unitCap ≤ 2 ^ 63)
    (he : MemManager.Enabled unitCap state (.malloc sz f))
    (hr : sz + 15 < 2 ^ 64) :
    ∃ a, state.malloc unitCap sz f = some a ∧ a.Kept unitCap ∧ a.TopUsed unitCap := by
  obtain ⟨-, large_fresh, unit_fresh⟩ := he
  by_cases hl : unitCap ≤ fixSize sz
  · refine ⟨_, if_pos hl, kept.addBig hr hl (large_fresh hl), fun base top => ?_⟩
    refine lt_of_lt_of_le (hu base top) ?_
    exact (sublist_cons_self _ _).countP_le
  · have hli := not_le.mp hl
    have hcr (ha : state.hasRoom unitCap (fixSize sz) = some false) : ∃ a,
        (state.createAllocation unitCap f).place (fixSize sz) sz = some a ∧ a.Kept unitCap ∧
          a.TopUsed unitCap := by
      obtain ⟨ht, hh, hc, hnb⟩ := kept.takeUnit (by omega) (unit_fresh hli ha)
        (rfl : state.takeUnit unitCap f = ((state.takeUnit unitCap f).1,
        (state.takeUnit unitCap f).2))
      exact (ht.openUnit hh hc hnb).place hr hli rfl (find_emplace_self (ht.find_closed hc))
        (by show 0 + fixSize sz ≤ unitCap; omega)
    have hs : state.malloc unitCap sz f = (do
        let r ← state.hasRoom unitCap (fixSize sz)
        (if r then state else state.createAllocation unitCap f).place (fixSize sz) sz) := if_neg hl
    rw [hs]
    cases top : state.allocations with
    | nil =>
      have hem : state.hasRoom unitCap (fixSize sz) = some false := by
        unfold hasRoom
        rw [top]
      rw [hem]
      exact hcr hem
    | cons base tl =>
      obtain ⟨info, hf, r⟩ := kept.hasRoom_eq top (fixSize sz)
      rw [r]
      by_cases hfi : (info.fill + fixSize sz) % 2 ^ 64 ≤ unitCap
      · -- the sum of two sizes below that of a unit does not wrap
        have hfl := (kept.unit base info hf).2.1
        rw [mod_eq_of_lt (by omega)] at hfi
        obtain ⟨a, hp⟩ := kept.place hr hli (by rw [top]; rfl) hf hfi
        refine ⟨a, ?_, hp.2⟩
        rw [decide_eq_true (by rw [mod_eq_of_lt (by omega)]; exact hfi)]
        exact hp.1
      · rw [decide_eq_false hfi]
        rw [decide_eq_false hfi] at r
        exact hcr r

/-! ### Freed blocks -/

omit kept

section

variable {b a : List MemBlock} {bl : MemBlock}

theorem bigBytes_perm {l o : List MemBlock} (hp : l.Perm o) :
    bigBytes unitCap l = bigBytes unitCap o :=
  ((hp.filter _).map _).sum_eq

theorem MemState.Kept.apart_others (kept : state.Kept unitCap) (hs : state.live = b ++ bl :: a) :
    ∀ o ∈ b ++ a, Apart bl.pointer (fixSize bl.size) o.pointer (fixSize o.size) := by
  have hd := kept.disjoint
  rw [hs, pairwise_append] at hd
  obtain ⟨-, hl, he⟩ := hd
  intro o hm
  rcases mem_append.mp hm with hea | hla
  · exact Or.symm (he o hea bl mem_cons_self)
  · exact rel_of_pairwise_cons hl hla

theorem mem_others (hs : state.live = b ++ bl :: a) : ∀ o ∈ b ++ a, o ∈ state.live := by
  intro o hm
  rw [hs]
  rcases mem_append.mp hm with he | hl
  · exact mem_append_left _ he
  · exact mem_append_right _ (mem_cons_of_mem _ hl)

theorem mem_of_ne {o : MemBlock} (hs : state.live = b ++ bl :: a) (ht : o ∈ state.live)
    (hd : o ≠ bl) : o ∈ b ++ a := by
  rw [hs, mem_append, mem_cons] at ht
  rw [mem_append]
  exact ht.imp_right fun hl => hl.resolve_left hd

theorem MemState.Kept.disjoint_others (kept : state.Kept unitCap) (hs : state.live = b ++ bl :: a) :
    (b ++ a).Pairwise fun f s =>
      Apart f.pointer (fixSize f.size) s.pointer (fixSize s.size) := by
  have hd := kept.disjoint
  rw [hs] at hd
  exact hd.sublist (List.Sublist.append_left (sublist_cons_self _ _) b)

theorem countP_split {p : MemBlock → Bool} (hs : state.live = b ++ bl :: a) :
    state.live.countP p = (b ++ a).countP p + if p bl then 1 else 0 := by
  rw [hs, perm_middle.countP_eq, countP_cons]

variable (kept : state.Kept unitCap) (split : state.live = b ++ bl :: a)

include kept split

theorem MemState.Kept.removeBig (hl : unitCap ≤ fixSize bl.size) : { state with
      bigUnits := state.bigUnits.erase bl.pointer
      activeBytes := state.activeBytes - BitVec.ofNat 64 (fixSize bl.size)
      held := state.held.erase bl.pointer
      live := b ++ a }.Kept unitCap := by
  have hm : bl ∈ state.live := by
    rw [split]
    exact mem_append_right _ mem_cons_self
  have own := kept.big bl hm hl
  have ho := mem_others split
  have unit_ne {base : Nat} (hu : base ∈ state.allocations ++ state.freeCache) :
      base ≠ bl.pointer :=
    (ne_of_find own (kept.separate base hu)).symm
  refine { kept with
    apart := fun base e o m hfr hse => ?_
    valid := fun base e hf => kept.valid base e (find_erase_iff.mp hf).2
    unitHeld := fun base hu => find_erase_iff.mpr ⟨unit_ne hu, kept.unitHeld base hu⟩
    bigHeld := fun base e hf => ?_
    separate := fun base hu => ?_
    unit := fun base info hf => ?_
    big := fun o ht big => ?_
    bigLive := fun base e hf => ?_
    small := fun o ht => kept.small o (ho o ht)
    sized := fun o ht => kept.sized o (ho o ht)
    disjoint := kept.disjoint_others split
    active := ?_ }
  · exact kept.apart base e o m (find_erase_iff.mp hfr).2 (find_erase_iff.mp hse).2
  · obtain ⟨ha, hf⟩ := find_erase_iff.mp hf
    exact find_erase_iff.mpr ⟨ha, kept.bigHeld base e hf⟩
  · show (state.bigUnits.erase bl.pointer).find base = none
    rw [find_erase, if_neg (unit_ne hu)]
    exact kept.separate base hu
  · obtain ⟨base_eq, hfi, hal, hc⟩ := kept.unit base info hf
    refine ⟨base_eq, hfi, hal, ?_⟩
    have hou := kept.big_outside hm hl ((kept.opened base).mpr ⟨info, hf⟩)
    rw [hc, countP_split split, hou]
    rfl
  · refine find_erase_iff.mpr ⟨fun hs => ?_, kept.big o (ho o ht) big⟩
    have hp := (kept.sized bl hm).2
    have other_positive := (kept.sized o (ho o ht)).2
    rcases kept.apart_others split o ht with hfr | hse <;> omega
  · obtain ⟨ha, hf⟩ := find_erase_iff.mp hf
    obtain ⟨o, ht, big, hpo⟩ := kept.bigLive base e hf
    refine ⟨o, mem_of_ne split ht ?_, big, hpo⟩
    rintro rfl
    exact ha hpo.symm
  · show state.activeBytes - BitVec.ofNat 64 (fixSize bl.size) =
      BitVec.ofNat 64 (state.allocations.length * unitCap + bigBytes unitCap (b ++ a))
    have sum : bigBytes unitCap state.live = fixSize bl.size + bigBytes unitCap (b ++ a) := by
      rw [split, bigBytes_perm perm_middle, bigBytes_big bl hl]
    rw [kept.active, sum, ← add_assoc, add_right_comm, BitVec.ofNat_add _ (fixSize bl.size),
      BitVec.add_sub_cancel]

theorem MemState.Kept.removeSmall (hli : fixSize bl.size < unitCap)
    (hf : state.units.find base = some i) (hw : bl.within unitCap base = true) :
    { state with
      units := state.units.assign base { i with subUnits := i.subUnits - 1 }
      live := b ++ a }.Kept unitCap := by
  have hm : bl ∈ state.live := by
    rw [split]
    exact mem_append_right _ mem_cons_self
  have ho := mem_others split
  have hlo {o : Nat} {x : AllocUnitInfo} :
      (state.units.assign base { i with subUnits := i.subUnits - 1 }).find o = some x ↔ _ :=
    find_assign_iff hf
  refine { kept with
    opened := fun o => (kept.opened o).trans (exists_find_assign hf).symm
    unit := fun o other_info other_found => ?_
    big := fun o ht => kept.big o (ho o ht)
    bigLive := fun o e big => ?_
    small := fun o ht hsm => ?_
    sized := fun o ht => kept.sized o (ho o ht)
    disjoint := kept.disjoint_others split
    active := ?_ }
  · rcases hlo.mp other_found with ⟨rfl, rfl⟩ | ⟨hd, other_found⟩
    · obtain ⟨base_eq, hfi, ha, hc⟩ := kept.unit o i hf
      refine ⟨base_eq, hfi, ha, ?_⟩
      show i.subUnits - 1 = _
      rw [hc, countP_split split, hw, if_pos rfl, Nat.add_sub_cancel]
    · obtain ⟨base_eq, hfi, ha, hc⟩ := kept.unit o other_info other_found
      refine ⟨base_eq, hfi, ha, ?_⟩
      have hou : ¬ bl.within unitCap o = true := by
        intro hi
        have hfr := of_decide_eq_true hw
        have hse := of_decide_eq_true hi
        rcases kept.units_apart hf other_found hd.symm with he | hl <;> omega
      rw [hc, countP_split split, if_neg hou, Nat.add_zero]
  · obtain ⟨other_block, ht, big_block, hp⟩ := kept.bigLive o e big
    refine ⟨other_block, mem_of_ne split ht ?_, big_block, hp⟩
    rintro rfl
    exact absurd big_block (not_le.mpr hli)
  · obtain ⟨u, unit_info, unit_found, low, hh⟩ := kept.small o (ho o ht) hsm
    by_cases hs : u = base
    · subst hs
      obtain rfl := some.inj (hf.symm.trans unit_found)
      exact ⟨u, _, hlo.mpr (.inl ⟨rfl, rfl⟩), low, hh⟩
    · exact ⟨u, unit_info, hlo.mpr (.inr ⟨hs, unit_found⟩), low, hh⟩
  · show state.activeBytes = BitVec.ofNat 64
      (state.allocations.length * unitCap + bigBytes unitCap (b ++ a))
    have sum : bigBytes unitCap state.live = bigBytes unitCap (b ++ a) := by
      rw [split, bigBytes_perm perm_middle, bigBytes_small bl hli]
    rw [← sum]
    exact kept.active

end

/-! ### Units that are given up -/

section

variable (kept : state.Kept unitCap)

include kept

variable (top : state.allocations = base :: tl)
    (unused : state.live.countP (MemBlock.within unitCap base) = 0)

include top unused

theorem MemState.Kept.closeUnit {c : List Nat} {h : OrderedMap Nat Nat}
    (hsu : ∀ o ∈ c, o = base ∨ o ∈ state.freeCache) (hn : (tl ++ c).Nodup)
    (kept_held : ∀ o ∈ tl ++ c, h.find o = some unitCap)
    (hs : ∀ o, o ≠ base → h.find o = state.held.find o)
    (old : ∀ o size, h.find o = some size → state.held.find o = some size) : { state with
      allocations := tl, freeCache := c, held := h
      activeBytes := state.activeBytes - BitVec.ofNat 64 unitCap
      units := state.units.erase base }.Kept unitCap := by
  have hd := kept.nodup
  rw [top, cons_append, nodup_cons] at hd
  have hu : base ∈ state.allocations ++ state.freeCache := by
    rw [top]
    exact mem_append_left _ mem_cons_self
  refine { kept with
    apart := fun f size s e hle hr => ?_
    valid := fun f size hf => kept.valid f size (old f size hf)
    unitHeld := kept_held
    bigHeld := fun f size big => ?_
    nodup := hn
    separate := fun o hm => ?_
    opened := fun o => ?_
    unit := fun o info hf => kept.unit o info (find_erase_iff.mp hf).2
    small := fun block hm hli => ?_
    active := ?_ }
  · exact kept.apart f size s e (old f size hle) (old s e hr)
  · show h.find f = _
    rw [hs f (ne_of_find big (kept.separate base hu))]
    exact kept.bigHeld f size big
  · rcases mem_append.mp hm with hl | hc
    · refine kept.separate o (mem_append_left _ ?_)
      rw [top]
      exact mem_cons_of_mem _ hl
    · rcases hsu o hc with rfl | hb
      · exact kept.separate o hu
      · exact kept.separate o (mem_append_right _ hb)
  · show o ∈ tl ↔ ∃ info, (state.units.erase base).find o = some info
    have ho := kept.opened o
    rw [top, mem_cons] at ho
    simp only [find_erase_iff, exists_and_left, ← ho]
    refine ⟨fun hl => ⟨?_, .inr hl⟩, fun hbo => hbo.2.resolve_left hbo.1⟩
    rintro rfl
    exact hd.1 (mem_append_left _ hl)
  · obtain ⟨o, info, hf, low, hh⟩ := kept.small block hm hli
    refine ⟨o, info, find_erase_iff.mpr ⟨fun own => ?_, hf⟩, low, hh⟩
    rw [countP_eq_zero] at unused
    have hp := (kept.sized block hm).2
    obtain ⟨-, hfi, -⟩ := kept.unit o info hf
    exact unused block hm (decide_eq_true (own ▸ ⟨low, by omega⟩))
  · show state.activeBytes - BitVec.ofNat 64 unitCap =
      BitVec.ofNat 64 (tl.length * unitCap + bigBytes unitCap state.live)
    rw [kept.active, top, length_cons, succ_mul, add_right_comm, BitVec.ofNat_add _ unitCap,
      BitVec.add_sub_cancel]

theorem MemState.Kept.destroyAllocation :
    ∃ a, state.destroyAllocation unitCap = some a ∧ a.Kept unitCap ∧ a.allocations = tl ∧
      a.live = state.live := by
  have hdi := kept.nodup
  rw [top, cons_append] at hdi
  have base_held := kept.unitHeld base (by rw [top]; exact mem_append_left _ mem_cons_self)
  have hu : ∀ o ∈ tl ++ state.freeCache, state.held.find o = some unitCap := by
    intro o hm
    refine kept.unitHeld o ?_
    rw [top]
    exact mem_cons_of_mem _ hm
  unfold MemState.destroyAllocation
  rw [top]
  by_cases hs : state.freeCache.length < freedCacheCap
  · refine ⟨{ state with
      allocations := tl, freeCache := base :: state.freeCache
      activeBytes := state.activeBytes - BitVec.ofNat 64 unitCap
      units := state.units.erase base }, ?_, kept.closeUnit top unused (fun o => mem_cons.mp) ?_ ?_
        (fun _ _ => rfl) (fun _ _ hf => hf), rfl, rfl⟩
    · simp only [if_pos hs, bind_eq_bind, bind_some]
      rfl
    · exact nodup_middle.mpr hdi
    · intro o hm
      rcases mem_append.mp hm with hl | hc
      · exact hu o (mem_append_left _ hl)
      · rcases mem_cons.mp hc with rfl | hb
        · exact base_held
        · exact hu o (mem_append_right _ hb)
  · have hfr : { state with
        allocations := tl,
          activeBytes := state.activeBytes - BitVec.ofNat 64 unitCap }.allocatorFree base =
        some { state with
          allocations := tl, activeBytes := state.activeBytes - BitVec.ofNat 64 unitCap
          held := state.held.erase base } := by
      unfold MemState.allocatorFree
      dsimp only
      rw [base_held]
    refine ⟨{ state with
      allocations := tl, held := state.held.erase base
      activeBytes := state.activeBytes - BitVec.ofNat 64 unitCap
      units := state.units.erase base }, ?_, kept.closeUnit top unused (fun o => .inr)
        (nodup_cons.mp hdi).2 ?_ ?_ fun _ _ hf => (find_erase_iff.mp hf).2, rfl, rfl⟩
    · simp only [if_neg hs, hfr, bind_eq_bind, bind_some]
      rfl
    · intro o hm
      refine find_erase_iff.mpr ⟨?_, hu o hm⟩
      rintro rfl
      exact (nodup_cons.mp hdi).1 hm
    · intro o hd
      rw [find_erase, if_neg hd]

omit top unused

/-- **The empty units on top go**, and the unit then on top has a block. -/
theorem MemState.Kept.shrink {ps : Nat} (he : state.allocations.length ≤ ps) :
    ∃ a, shrink unitCap ps state = some a ∧ a.Kept unitCap ∧ a.TopUsed unitCap := by
  induction ps generalizing state with
  | zero =>
    refine ⟨state, rfl, kept, fun base top => ?_⟩
    rw [length_eq_zero_iff.mp (le_zero.mp he)] at top
    exact absurd top (not_mem_none _)
  | succ ps ih =>
    unfold shrink
    cases top : state.allocations with
    | nil =>
      refine ⟨state, rfl, kept, fun base hm => ?_⟩
      rw [top] at hm
      exact absurd hm (not_mem_none _)
    | cons base tl =>
      obtain ⟨info, hf⟩ := (kept.opened base).mp (by rw [top]; exact mem_cons_self)
      have hc := (kept.unit base info hf).2.2.2
      simp only [hf, bind_eq_bind, bind_some]
      by_cases hem : info.subUnits = 0
      · obtain ⟨d, hd, hs, allocations, -⟩ := kept.destroyAllocation top (hc.symm.trans hem)
        rw [if_pos hem, hd, bind_some]
        refine ih hs ?_
        rw [allocations]
        rw [top] at he
        exact le_of_succ_le_succ he
      · rw [if_neg hem]
        refine ⟨state, rfl, kept, fun o hm => ?_⟩
        rw [top] at hm
        cases hm
        omega

/-! ### Calls -/

theorem MemState.Kept.unit_found (hm : block ∈ state.live)
    (hl : fixSize block.size < unitCap) : ∃ base info, state.units.find base = some info ∧
      block.within unitCap base = true ∧ block.pointer + fixSize block.size ≤ base + unitCap ∧
        (state.units.upTo block.pointer).getLast? = some (base, info) := by
  obtain ⟨base, info, hf, low, hh⟩ := kept.small block hm hl
  obtain ⟨-, hfi, -⟩ := kept.unit base info hf
  have hp := (kept.sized block hm).2
  refine ⟨base, info, hf, decide_eq_true ⟨low, by omega⟩, by omega, getLast?_upTo hf low ?_⟩
  intro o other_info other_found hab
  rcases kept.units_apart hf other_found hab.ne with hb | ha <;> omega

theorem MemState.Kept.big_none (hm : block ∈ state.live)
    (hl : fixSize block.size < unitCap) : state.bigUnits.find block.pointer = none := by
  obtain ⟨base, info, hf, within, hh, -⟩ := kept.unit_found hm hl
  have hst := of_decide_eq_true within
  have hu := mem_append_left state.freeCache ((kept.opened base).mpr ⟨info, hf⟩)
  cases big : state.bigUnits.find block.pointer with
  | none => rfl
  | some size =>
    have hp := (kept.valid _ _ (kept.bigHeld _ _ big)).2.2
    have hs := kept.range_unique hm (kept.unitHeld base hu) hst.1 hh (kept.bigHeld _ _ big)
      ⟨le_rfl, by omega⟩
    exact absurd hs.symm (ne_of_find big (kept.separate base hu))

variable (used : state.TopUsed unitCap)

include used

/-- **Freeing a block keeps the invariant.** -/
theorem MemState.Kept.free {i : Nat} (hi : i < state.live.length) :
    ∃ a, MemManager.next unitCap state (.free i) = some a ∧ a.Kept unitCap ∧ a.TopUsed unitCap := by
  have ht := List.getElem?_eq_getElem hi
  obtain ⟨b, l, hsp, her, -⟩ := split_at ht
  obtain ⟨block, block_eq⟩ : ∃ block, block = state.live[i] := ⟨_, rfl⟩
  rw [← block_eq] at ht hsp
  have hm : block ∈ state.live := mem_of_getElem? ht
  have hs : MemManager.next unitCap state (.free i) =
      { state with live := b ++ l }.free unitCap block.pointer := by
    unfold MemManager.next
    dsimp only
    rw [ht, her, bind_eq_bind, bind_some]
  rw [hs]
  unfold MemState.free
  dsimp only
  obtain ⟨base, size, hh, low, -⟩ := kept.range hm
  have hv := (kept.valid base size hh).1
  rw [if_neg (by omega)]
  by_cases hla : unitCap ≤ fixSize block.size
  · have big := kept.big block hm hla
    have hg := kept.bigHeld _ _ big
    rw [big]
    refine ⟨_, ?_, kept.removeBig hsp hla, fun base top => ?_⟩
    · unfold MemState.allocatorFree
      dsimp only
      rw [hg]
    · have hc := used base top
      rw [countP_split hsp, kept.big_outside hm hla (mem_of_mem_head? top)] at hc
      exact hc
  · have hli := not_le.mp hla
    obtain ⟨base, info, hf, within, hhi, hl⟩ := kept.unit_found hm hli
    obtain ⟨base_eq, -, -, hc⟩ := kept.unit base info hf
    have hco := kept.removeSmall hsp hli hf within
    have hp : 0 < info.subUnits := by
      rw [hc, countP_pos_iff]
      exact ⟨block, hm, within⟩
    rw [kept.big_none hm hli]
    simp only [hl, bind_eq_bind, bind_some]
    rw [if_pos ⟨by omega, hp⟩]
    by_cases he : info.subUnits - 1 = 0
    · rw [if_pos he]
      exact hco.shrink le_rfl
    · rw [if_neg he]
      refine ⟨_, rfl, hco, fun o top => ?_⟩
      have ho := mem_of_mem_head? top
      obtain ⟨other_info, other_found⟩ := (hco.opened o).mp ho
      have new_count := (hco.unit o other_info other_found).2.2.2
      show 0 < (b ++ l).countP (MemBlock.within unitCap o)
      rw [← new_count]
      rcases (find_assign_iff hf).mp other_found with ⟨-, rfl⟩ | ⟨-, other_found⟩
      · show 0 < info.subUnits - 1
        omega
      · rw [(kept.unit o other_info other_found).2.2.2]
        exact used o top

/-- **The step lemma**: every call succeeds and keeps the invariant. -/
theorem MemState.Kept.next (hm : unitCap ≤ 2 ^ 63) {ac : MemAction}
    (he : MemManager.Enabled unitCap state ac) (hr : Rounds ac) :
    ∃ a, next unitCap state ac = some a ∧ a.Kept unitCap ∧ a.TopUsed unitCap := by
  cases ac with
  | malloc size f => exact kept.malloc used hm he hr
  | free i => exact kept.free used he

theorem MemState.Kept.safe : state.Safe unitCap where
  disjoint := by
    refine List.Pairwise.imp_of_mem (fun {f s} hle hr hap => ?_) kept.disjoint
    have first_size := (kept.sized f hle).2
    have second_size := (kept.sized s hr).2
    rcases hap with hb | ha
    · exact .inl (by omega)
    · exact .inr (by omega)
  aligned block hm := (kept.sized block hm).1
  inside block hm := by
    obtain ⟨base, size, hh, low, hhi, -⟩ := kept.range hm
    have he := (kept.sized block hm).2
    exact ⟨base, size, hh, low, by omega⟩
  found block hm := by
    have he := (kept.sized block hm).2
    by_cases hla : unitCap ≤ fixSize block.size
    · exact .inl ⟨_, kept.big block hm hla, le_rfl, by omega⟩
    · obtain ⟨base, info, hf, within, hhi, hl⟩ := kept.unit_found hm (not_le.mp hla)
      have hs := of_decide_eq_true within
      refine .inr ⟨kept.big_none hm (not_le.mp hla), base, info, hl, ⟨hs.1, by omega⟩, ?_⟩
      rw [(kept.unit base info hf).2.2.2, countP_pos_iff]
      exact ⟨block, hm, within⟩
  top base top := by
    obtain ⟨block, hm, within⟩ := countP_pos_iff.mp (used base top)
    have hs := of_decide_eq_true within
    have ho := mem_of_mem_head? top
    obtain ⟨info, hf⟩ := (kept.opened base).mp ho
    obtain ⟨-, hfi, -⟩ := kept.unit base info hf
    have he := (kept.sized block hm).2
    refine ⟨block, hm, hs.1, ?_⟩
    rcases kept.beside hf hm with hb | ha <;> omega
  emptied hn := by
    have hcl : state.allocations = [] := by
      cases top : state.allocations with
      | nil => rfl
      | cons base tl =>
        have hc := used base (by rw [top]; rfl)
        rw [hn] at hc
        exact absurd hc (lt_irrefl 0)
    refine ⟨entries_eq_nil.mpr fun base => ?_, entries_eq_nil.mpr fun base => ?_, hcl, ?_⟩
    · cases hf : state.units.find base with
      | none => rfl
      | some info =>
        have ho := (kept.opened base).mpr ⟨info, hf⟩
        rw [hcl] at ho
        exact absurd ho not_mem_nil
    · cases hf : state.bigUnits.find base with
      | none => rfl
      | some size =>
        obtain ⟨block, hm, -⟩ := kept.bigLive base size hf
        rw [hn] at hm
        exact absurd hm not_mem_nil
    · rw [kept.active, hcl, hn]
      simp [bigBytes]

end

end

/-- **The memory manager is a correct allocator** in every run of requests whose sizes round up
without wrapping, and of frees, in any order; and no call fails. -/
theorem run_allocates {unitCap : Nat} (moderate : unitCap ≤ 2 ^ 63) {actions : List MemAction}
    {state : MemState}
    (run : (MemManager.machine unitCap).Run (fun _ action => Rounds action) actions state) :
    state.Safe unitCap ∧ ∀ action, MemManager.Enabled unitCap state action → Rounds action →
      (MemManager.next unitCap state action).isSome := by
  have hk : state.Kept unitCap ∧ state.TopUsed unitCap := by
    refine run.invariant (fun state => state.Kept unitCap ∧ state.TopUsed unitCap) (fun st hi => ?_)
      fun b action a hh he hr ht => ?_
    · rw [show st = _ from hi]
      exact ⟨start_kept, fun ba top => absurd top (not_mem_none _)⟩
    · obtain ⟨s, hs, hk⟩ := hh.1.next hh.2 moderate he hr
      obtain rfl := some.inj (hs.symm.trans ht)
      exact hk
  refine ⟨hk.1.safe hk.2, fun action he hr => ?_⟩
  obtain ⟨a, hs, -⟩ := hk.1.next hk.2 moderate he hr
  rw [hs]
  rfl

def buriedUnit : List MemAction :=
  [.malloc 0 4096, .malloc (2 ^ 27 - 32) 0, .malloc 100 (2 ^ 28), .malloc (2 ^ 27) (2 ^ 29),
    .free 3, .free 2,
    .free 1, .free 0]

theorem run_allocates_buried : ∃ state,
    (MemManager.machine (2 ^ 27)).Run (fun _ action => Rounds action) buriedUnit state ∧
        state.Safe (2 ^ 27) := by
  have hr : ∃ state, (machine (2 ^ 27)).Run (fun _ action => Rounds action) buriedUnit state :=
    Machine.Run.exists_computed start rfl (by decide +kernel)
  obtain ⟨state, run⟩ := hr
  exact ⟨state, run, (run_allocates (by decide) run).1⟩

/-- **A request of `2 ^ 64 - 1` bytes is rounded to none**, and gets a block all the same. -/
theorem largest_request_wraps : ∃ state,
    (MemManager.machine (2 ^ 27)).Run (fun _ _ => True) [.malloc (2 ^ 64 - 1) 4096] state ∧
        ¬ state.Safe (2 ^ 27) := by
  have hfi : (next (2 ^ 27) start (.malloc (2 ^ 64 - 1) 4096)).map
      (fun state => (state.live, state.held.entries)) = some ([⟨4096, 2 ^ 64 - 1⟩],
      [(4096, 2 ^ 27)]) := by
    decide +kernel
  obtain ⟨state, hst, hs⟩ := map_eq_some_iff.mp hfi
  obtain ⟨hl, hh⟩ := Prod.mk.inj hs
  have he : MemManager.Enabled (2 ^ 27) start (.malloc (2 ^ 64 - 1) 4096) := by decide +kernel
  have run : (machine (2 ^ 27)).Run (fun _ _ => True) ([] ++ [.malloc (2 ^ 64 - 1) 4096]) state :=
    .step (.start rfl) he trivial hst
  refine ⟨state, run, fun hsa => ?_⟩
  obtain ⟨b, sz, hf, low, hhi⟩ := hsa.inside ⟨4096, 2 ^ 64 - 1⟩ (by rw [hl]; exact mem_cons_self)
  have hm := mem_of_find hf
  rw [hh, mem_singleton] at hm
  cases hm
  have hw : 4096 + max (2 ^ 64 - 1) 1 ≤ 4096 + 2 ^ 27 := hhi
  omega

end Proteus.Platform
