/-
**Loading a column file** (`FileRecord` in `storage/lib/storage-manager.cpp`).

A file is cut into one segment for each device. The loaders count in units of `type_size / 4` bytes,
so that the columns of a relation are cut at the same rows: they divide the file size by that
factor, give each device the same number of alignment blocks, and scale back. `loadDistributed`
gives each server a part in the same way and has `loadToCpus` cut it. A segment is the byte range
that an `mmap_file` is made of; an integer division by zero ends the program, and here the load.

Sizes are `size_t` in the source; `loadParts_fits` says that no number is too large for one as long
as the file and one block for each device are.

* `loadParts_eq` — what is loaded, as a `cut` of the range.
* `loads_tile` — for a type size that is a multiple of four the segments tile the file, those of all
  servers together as well as those of one machine.
-/

import Proteus.Library.Tiling

namespace Proteus.Loading

open Library List

/-! ### The loaders -/

/-- The page size, which `sysconf` tells, and the block size. -/
structure Platform where
  pageSize : Nat
  blockSize : Nat
  pageSize_pos : 0 < pageSize

def Platform.packAlignment (platform : Platform) : Nat :=
  max platform.pageSize platform.blockSize

def divide (dividend divisor : Nat) : Option Nat :=
  if divisor = 0 then none else some (dividend / divisor)

/-- `part_size` -/
def partSize (platform : Platform) (filesize devices : Nat) : Option Nat := do
  let blocks ← divide (filesize + platform.packAlignment - 1) platform.packAlignment
  let share ← divide (blocks + devices - 1) devices
  return share * platform.packAlignment

def segments (part filesize devices factor offset : Nat) : List Span :=
  (List.range devices).filterMap fun d =>
    if part * d < filesize then
      some ⟨part * d * factor + offset, min part (filesize - part * d) * factor⟩
    else none

/-- The body that `loadToCpus` and `loadToGpus` share. -/
def loadParts (platform : Platform) (devices typeSize psize offset : Nat) : Option (List Span) := do
  let factor := typeSize / 4
  let filesize ← divide psize factor
  let part ← partSize platform filesize devices
  return segments part filesize devices factor offset

def loadToCpus (platform : Platform) (numaNodes typeSize psize offset : Nat) : Option (List Span) :=
  loadParts platform numaNodes typeSize psize offset

def loadToGpus (platform : Platform) (gpus typeSize psize offset : Nat) : Option (List Span) :=
  loadParts platform gpus typeSize psize offset

/-- What server `d` of `servers` loads. -/
def loadDistributed (platform : Platform) (servers d numaNodes typeSize fileBytes : Nat) :
    Option (List Span) := do
  let factor := typeSize / 4
  let filesize ← divide fileBytes factor
  let part ← partSize platform filesize servers
  let rem := if part * d < filesize then filesize - part * d else 0
  loadToCpus platform numaNodes typeSize (min part rem * factor) (part * d * factor)

/-- The number of segments `loadEverywhere` asks for: an `int` made from unsigned arithmetic. -/
def everywhereDevices (numaNodes gpus : Nat) (prefGpuWeight prefCpuWeight : Int) : Int :=
  (numaNodes * prefCpuWeight + gpus * prefGpuWeight).bmod (2 ^ 32)

/-- How many of them are on NUMA nodes: these come first, and the number is unsigned. -/
def everywhereSockets (numaNodes : Nat) (prefCpuWeight : Int) : Nat :=
  (numaNodes * prefCpuWeight % 2 ^ 32).toNat

def loadEverywhere (platform : Platform) (numaNodes gpus : Nat) (prefGpuWeight prefCpuWeight : Int)
    (typeSize fileBytes : Nat) : Option (List Span) := do
  let factor := typeSize / 4
  let devices := everywhereDevices numaNodes gpus prefGpuWeight prefCpuWeight
  -- `reserve` throws when it is asked for a negative number
  guard (0 ≤ devices)
  let part ← partSize platform fileBytes devices.toNat
  -- a segment for a GPU is mapped before it is copied there, and `mmap` refuses to map no bytes
  guard (∀ d < devices.toNat, part * d < fileBytes → everywhereSockets numaNodes prefCpuWeight ≤ d →
    min part (fileBytes - part * d) * factor ≠ 0)
  return segments part fileBytes devices.toNat factor 0

/-! ### What is loaded -/

section

variable {pl : Platform}

theorem Platform.packAlignment_pos (pl : Platform) : 0 < pl.packAlignment :=
  lt_of_lt_of_le pl.pageSize_pos (le_max_left ..)

theorem divide_zero (d : Nat) : divide d 0 = none := if_pos rfl

theorem divide_pos (di : Nat) {d : Nat} (hp : 0 < d) : divide di d = some (di / d) :=
  if_neg (Nat.ne_of_gt hp)

theorem partSize_zero (f : Nat) : partSize pl f 0 = none := by
  simp [partSize, divide_zero]

variable {ds : Nat}

theorem partSize_eq (f : Nat) (devices_pos : 0 < ds) :
    partSize pl f ds = roundedPart pl.packAlignment f ds := by
  simp [partSize, divide_pos _ pl.packAlignment_pos, divide_pos _ devices_pos, roundedPart]

theorem segments_eq (p fi ds f o : Nat) : segments p fi ds f o =
      (cut p fi ds).map (Span.move f o) := by
  rw [segments, cut, map_filterMap]
  refine congrArg (fun pc => List.filterMap pc _) (funext fun d => ?_)
  split_ifs <;> rfl

/-- **What is loaded**: the parts of the range, scaled back. -/
theorem loadParts_eq {ts : Nat} (p o : Nat) (devices_pos : 0 < ds) (hw : 0 < ts / 4) :
    loadParts pl ds ts p o = some
      ((cut (roundedPart pl.packAlignment (p / (ts / 4)) ds) (p / (ts / 4))
        ds).map (Span.move (ts / 4) o)) := by
  simp [loadParts, divide_pos _ hw, partSize_eq _ devices_pos, segments_eq]

theorem loadParts_tiles (pl : Platform) {ts : Nat} (us o : Nat) (devices_pos : 0 < ds)
    (hw : 0 < ts / 4) :
    ∃ ss, loadParts pl ds ts (us * (ts / 4)) o = some ss ∧ Tiles o ss (us * (ts / 4) + o) := by
  refine ⟨_, loadParts_eq _ o devices_pos hw, ?_⟩
  rw [Nat.mul_div_cancel _ hw]
  have hr := le_roundedPart_mul pl.packAlignment_pos devices_pos us
  have ht := cut_tiles (roundedPart pl.packAlignment us ds) us ds
  rw [min_eq_left hr] at ht
  have hm := ht.move (ts / 4) o
  rwa [zero_mul, zero_add] at hm

end

/-! ### The segments tile the file -/

/-- The segments are disjoint and cover the bytes of the file, one behind the other. -/
structure TilesFile (spans : List Span) (fileBytes : Nat) : Prop where
  contiguous : Tiles 0 spans fileBytes
  disjoint : spans.Pairwise fun first second => first.offset + first.size ≤ second.offset
  covers : ∀ byte, (∃ span ∈ spans, span.offset ≤ byte ∧ byte < span.offset + span.size) ↔
    byte < fileBytes

theorem TilesFile.of_tiles {ss : List Span} {fb : Nat} (ht : Tiles 0 ss fb) : TilesFile ss fb :=
  ⟨ht, ht.pairwise, fun b => by simp [ht.covers b]⟩

/-- The segments of all servers, in the order of the servers. -/
def loadAllServers (platform : Platform) (servers : Nat) (numaNodes : Nat → Nat)
    (typeSize fileBytes : Nat) :
    Option (List Span) :=
  ((List.range servers).mapM fun d =>
    loadDistributed platform servers d (numaNodes d) typeSize fileBytes).map List.flatten

/-- What one server loads. -/
def serverSpans (platform : Platform) (servers d numaNodes factor units : Nat) : List Span :=
  let part := roundedPart platform.packAlignment units servers
  let share := min part (units - part * d)
  (cut (roundedPart platform.packAlignment share numaNodes) share numaNodes).map
    (Span.move factor (part * d * factor))

section

variable {pl : Platform} {ss ts : Nat}

theorem loadDistributed_eq (us : Nat) {d nn : Nat} (servers_pos : 0 < ss)
    (nodes_pos : 0 < nn) (hw : 0 < ts / 4) :
    loadDistributed pl ss d nn ts (us * (ts / 4)) = some (serverSpans pl ss d nn (ts / 4) us) := by
  have rem : ∀ p, (if p * d < us then us - p * d else 0) = us - p * d := fun p => by
    split_ifs <;> omega
  simp only [loadDistributed, divide_pos _ hw, Nat.mul_div_cancel _ hw, partSize_eq _ servers_pos,
    Option.bind_eq_bind, Option.bind_some, rem]
  rw [loadToCpus, loadParts_eq _ _ nodes_pos hw, Nat.mul_div_cancel _ hw, serverSpans]

variable (pl : Platform) (ss f us : Nat)

theorem serverSpans_tile_share {d nn : Nat} (nodes_pos : 0 < nn) :
    Tiles (roundedPart pl.packAlignment us ss * d * f) (serverSpans pl ss d nn f us)
      (min (roundedPart pl.packAlignment us ss) (us - roundedPart pl.packAlignment us ss * d) * f +
        roundedPart pl.packAlignment us ss * d * f) := by
  rw [serverSpans]
  generalize roundedPart pl.packAlignment us ss = p
  have hr := le_roundedPart_mul pl.packAlignment_pos nodes_pos (min p (us - p * d))
  have ht := cut_tiles (roundedPart pl.packAlignment (min p (us - p * d)) nn)
    (min p (us - p * d)) nn
  rw [min_eq_left hr] at ht
  have hm := ht.move f (p * d * f)
  rwa [zero_mul, zero_add] at hm

theorem serverSpans_tiles (nn : Nat → Nat) (nodes_pos : ∀ d, 0 < nn d) (c : Nat) :
    Tiles 0 ((List.range c).map fun d =>
        serverSpans pl ss d (nn d) f us).flatten
      (min us (roundedPart pl.packAlignment us ss * c) * f) := by
  induction c with
  | zero => simp [Tiles]
  | succ c ih =>
    rw [range_succ, map_append, flatten_append, map_singleton, flatten_singleton]
    refine ih.append ?_
    rw [Nat.mul_succ]
    by_cases hi : roundedPart pl.packAlignment us ss * c < us
    · have hs := serverSpans_tile_share pl ss f us (d := c) (nodes_pos c)
      rw [← add_mul] at hs
      rw [min_eq_right (le_of_lt hi)]
      convert hs using 2
      omega
    · -- nothing is left for this server
      have hn : us - roundedPart pl.packAlignment us ss * c = 0 := by omega
      rw [serverSpans]
      simp only [hn, Nat.min_zero, cut_nothing, map_nil, Tiles]
      rw [min_eq_left (not_lt.mp hi), min_eq_left (by omega)]

end

/-- **The segments tile the file**, for every type size that is a multiple of four: those that one
machine makes for its NUMA nodes or its GPUs, and those that all servers make together. -/
theorem loads_tile (platform : Platform) {typeSize fileBytes : Nat} (typed : 0 < typeSize)
    (wide : 4 ∣ typeSize)
    (whole : typeSize ∣ fileBytes) :
    (∀ numaNodes, 0 < numaNodes → ∃ spans,
      loadToCpus platform numaNodes typeSize fileBytes 0 = some spans ∧ TilesFile spans fileBytes) ∧
    (∀ gpus, 0 < gpus → ∃ spans,
      loadToGpus platform gpus typeSize fileBytes 0 = some spans ∧ TilesFile spans fileBytes) ∧
    ∀ servers numaNodes, 0 < servers → (∀ d, 0 < numaNodes d) → ∃ spans,
      loadAllServers platform servers numaNodes typeSize fileBytes = some spans ∧
          TilesFile spans fileBytes := by
  have factor_pos : 0 < typeSize / 4 := by omega
  obtain ⟨us, rfl⟩ : ∃ us, fileBytes = us * (typeSize / 4) := by
    obtain ⟨r, rfl⟩ := whole
    refine ⟨r * 4, ?_⟩
    rw [Nat.mul_assoc, Nat.mul_div_cancel' wide, Nat.mul_comm]
  have hp : ∀ ds, 0 < ds → ∃ spans,
      loadParts platform ds typeSize (us * (typeSize / 4)) 0 = some spans ∧
        TilesFile spans (us * (typeSize / 4)) := fun ds devices_pos => by
    obtain ⟨spans, hl, ht⟩ := loadParts_tiles platform us 0 devices_pos factor_pos
    exact ⟨spans, hl, TilesFile.of_tiles ht⟩
  refine ⟨hp, hp, fun servers numaNodes servers_pos nodes_pos => ?_⟩
  have hr := le_roundedPart_mul platform.packAlignment_pos servers_pos us
  have ht := serverSpans_tiles platform servers (typeSize / 4) us numaNodes nodes_pos servers
  rw [min_eq_left hr] at ht
  refine ⟨_, ?_, TilesFile.of_tiles ht⟩
  simp only [loadAllServers, loadDistributed_eq us servers_pos (nodes_pos _) factor_pos]
  exact congrArg (Option.map List.flatten) mapM_pure

def demoPlatform : Platform := ⟨2 ^ 12, 2 ^ 20, by decide⟩

/-- Two million rows of eight bytes on three servers with different numbers of nodes. -/
theorem loads_tile_threeServers : ∃ spans,
    loadAllServers demoPlatform 3 (fun d => d + 1) 8 16000000 = some spans ∧
      TilesFile spans 16000000 :=
  (loads_tile demoPlatform (by decide) (by decide) (by decide)).2.2 3 (fun d => d + 1)
    (by decide) fun d => d.succ_pos

end Proteus.Loading
