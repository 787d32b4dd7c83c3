/-
**The memory of the slots of a lazy secondary** (`LazySecondary`, `getElemByOffset` in
`lazy-column.cpp`, `Column::UpdateInPlace` in `column.cpp`).

A slot is found by going through the chunks: as long as it does not end within a chunk, the size of
the chunk is taken off its position. A slot that lies across a border has then a position below
zero, in unsigned arithmetic, while its end is compared as if nothing had happened: it is taken to
begin in front of the next chunk.

The first chunk has room for a number of elements. Each growth takes the double of the capacity, a
number of elements, for a number of bytes and adds the remainder by the unit size, which does not
make it a multiple.

* `getElemByOffset_eq` — the chunk in which a slot ends, and where it is then taken to begin.
* `slots_apart_iff` — the slots have memory of their own in one chunk exactly if every border
  between two chunks is one between two slots, or is behind the last slot.
-/

import Proteus.Oltp.Layout.LazyColumn

namespace Proteus.Oltp.Layout

open Library List Option

/-! ### Chunks and slots -/

/-- `mem_chunk`, as a range of addresses. -/
structure MemChunk where
  data : Nat
  size : Nat
deriving DecidableEq

def getElemFrom (unitSize : Nat) : List MemChunk → Nat → Option Nat
  | [], _ => none
  | chunk :: chunks, dataIdx =>
    if (dataIdx + unitSize) % 2 ^ 64 ≤ chunk.size then some ((chunk.data + dataIdx) % 2 ^ 64)
    else getElemFrom unitSize chunks ((dataIdx + 2 ^ 64 - chunk.size) % 2 ^ 64)

def getElemByOffset (data : List MemChunk) (unitSize offset : Nat) : Option Nat :=
  getElemFrom unitSize data (offset * unitSize % 2 ^ 64)

def updateInPlaceFrom (unitSize : Nat) : List MemChunk → Nat → Option Nat
  | [], _ => none
  | chunk :: chunks, offset =>
    if (offset + unitSize) % 2 ^ 64 ≤ chunk.size then
      let dst := (chunk.data + offset) % 2 ^ 64
      some dst
    else updateInPlaceFrom unitSize chunks ((offset + 2 ^ 64 - chunk.size) % 2 ^ 64)

def updateInPlaceAt (dataVector : List MemChunk) (offset unitSize : Nat) : Option Nat :=
  updateInPlaceFrom unitSize dataVector (offset * unitSize % 2 ^ 64)

/-- The part of a `LazySecondary` that says where its slots are. -/
structure SlotMemory where
  initialCapacity : Nat
  capacity : Nat
  data : List MemChunk

namespace SlotMemory

/-- The constructor, with memory that was allocated at `mem`. -/
def create (unitSize capacity mem : Nat) : SlotMemory :=
  ⟨capacity, capacity, [⟨mem, capacity * unitSize % 2 ^ 64⟩]⟩

def increaseCapacity (timesFactor : Nat → Nat) (unitSize mem : Nat) (memory : SlotMemory) :
    Option SlotMemory :=
  if unitSize = 0 then none
  else
    let incSize := timesFactor memory.capacity
    some { memory with
      capacity := (memory.capacity + memory.initialCapacity) % 2 ^ 64
      data := memory.data ++ [⟨mem, (incSize + incSize % unitSize) % 2 ^ 64⟩] }

/-- Growths, each with the memory it was given. -/
def grow (timesFactor : Nat → Nat) (unitSize : Nat) (memory : SlotMemory) (mems : List Nat) :
    Option SlotMemory :=
  mems.foldlM (fun memory mem => memory.increaseCapacity timesFactor unitSize mem) memory

end SlotMemory

/-! ### What is claimed of the slots -/

/-- What the memory manager gives: ranges of the lower half of the addresses that do not meet. -/
structure Allocated (chunks : List MemChunk) : Prop where
  apart : chunks.Pairwise fun first second =>
    first.data + first.size ≤ second.data ∨ second.data + second.size ≤ first.data
  nonnull : ∀ chunk ∈ chunks, 0 < chunk.data
  lower : ∀ chunk ∈ chunks, chunk.data + chunk.size ≤ 2 ^ 63

/-- Both functions report success for a slot and all before it. -/
def Reports (unitSize : Nat) (chunks : List MemChunk) (slot : Nat) : Prop :=
  ∀ earlier ≤ slot, getElemByOffset chunks unitSize earlier ≠ none ∧
    updateInPlaceAt chunks earlier unitSize ≠ none

/-- One range for both functions, in one chunk, and apart from those of the other slots. -/
structure SlotsApart (unitSize : Nat) (chunks : List MemChunk) : Prop where
  same : ∀ slot, Reports unitSize chunks slot →
    updateInPlaceAt chunks slot unitSize = getElemByOffset chunks unitSize slot
  inside : ∀ slot address, Reports unitSize chunks slot →
    getElemByOffset chunks unitSize slot = some address →
    ∃ chunk ∈ chunks, chunk.data ≤ address ∧ address + unitSize ≤ chunk.data + chunk.size
  apart : ∀ first second address other, Reports unitSize chunks first →
    Reports unitSize chunks second →
    first ≠ second → getElemByOffset chunks unitSize first = some address →
    getElemByOffset chunks unitSize second = some other →
    address + unitSize ≤ other ∨ other + unitSize ≤ address

/-- The number of bytes in front of a chunk. -/
def border (chunks : List MemChunk) (index : Nat) : Nat :=
    ((chunks.take index).map MemChunk.size).sum

/-- The number of bytes in all of them. -/
def totalBytes (chunks : List MemChunk) : Nat := (chunks.map MemChunk.size).sum

/-! ### Where a slot is found -/

variable {chunk : MemChunk} {rest tl : Nat}

section

variable {us sl stop s address : Nat} {chunks : List MemChunk}

theorem updateInPlaceAt_eq : updateInPlaceAt chunks sl us = getElemByOffset chunks us sl := by
  unfold updateInPlaceAt getElemByOffset
  generalize sl * us % 2 ^ 64 = di
  induction chunks generalizing di with
  | nil => rfl
  | cons chunk chunks ih =>
    unfold updateInPlaceFrom getElemFrom
    rw [ih]

def locate : List MemChunk → Nat → Option (MemChunk × Nat)
  | [], _ => none
  | chunk :: chunks, stop => if stop ≤ chunk.size then some (chunk, stop) else
      locate chunks (stop - chunk.size)

variable (unit : us < 2 ^ 64) (sizes : ∀ chunk ∈ chunks, chunk.size < 2 ^ 64)

include unit sizes

theorem getElemFrom_eq (hs : s < 2 ^ 64) : getElemFrom us chunks ((s + 2 ^ 64 - us) % 2 ^ 64) =
      (locate chunks s).map fun f => (f.1.data + (f.2 + 2 ^ 64 - us) % 2 ^ 64) % 2 ^ 64 := by
  induction chunks generalizing s with
  | nil => rfl
  | cons chunk chunks ih =>
    have own := sizes chunk mem_cons_self
    have hst : ((s + 2 ^ 64 - us) % 2 ^ 64 + us) % 2 ^ 64 = s := by omega
    unfold getElemFrom locate
    rw [hst]
    split_ifs with hh
    · rfl
    · rw [← ih (fun o hi => sizes o (mem_cons_of_mem _ hi)) (by omega)]
      congr 1
      omega

/-- **Where a slot is taken to be.** -/
theorem getElemByOffset_eq (hs : (sl + 1) * us < 2 ^ 64) :
    getElemByOffset chunks us sl = (locate chunks ((sl + 1) * us)).map fun f =>
      (f.1.data + (f.2 + 2 ^ 64 - us) % 2 ^ 64) % 2 ^ 64 := by
  rw [← getElemFrom_eq unit sizes hs, getElemByOffset, Nat.succ_mul]
  rw [Nat.succ_mul] at hs
  congr 1
  omega

omit unit sizes

@[simp]
theorem border_zero : border chunks 0 = 0 := rfl

theorem border_succ {i : Nat} (ht : chunks[i]? = some chunk) :
    border chunks (i + 1) = border chunks i + chunk.size := by
  unfold border
  rw [take_add_one, ht, toList_some, map_append, sum_append, map_singleton, sum_singleton]

theorem border_mono {f s : Nat} (le : f ≤ s) : border chunks f ≤ border chunks s := by
  unfold border
  exact List.Sublist.sum_le_sum ((take_sublist_take_left le).map _) fun _ _ => Nat.zero_le _

theorem border_cons (chunk : MemChunk) (i : Nat) :
    border (chunk :: chunks) (i + 1) = chunk.size + border chunks i := by
  unfold border
  rw [take_succ_cons, map_cons, sum_cons]

theorem locate_spec (hp : 0 < s) (hf : locate chunks s = some (chunk, tl)) :
    ∃ i, chunks[i]? = some chunk ∧ border chunks i + tl = s ∧ 0 < tl ∧ tl ≤ chunk.size := by
  induction chunks generalizing s with
  | nil => cases hf
  | cons f chunks ih =>
    unfold locate at hf
    split_ifs at hf with hh
    · obtain ⟨rfl, rfl⟩ := Prod.mk.inj (some.inj hf)
      exact ⟨0, rfl, Nat.zero_add _, hp, hh⟩
    · obtain ⟨i, ht, he, ha, hi⟩ := ih (by omega) hf
      refine ⟨i + 1, ht, ?_, ha, hi⟩
      rw [border_cons]
      omega

theorem locate_ne_none (hp : 0 < s) : locate chunks s ≠ none ↔ s ≤ totalBytes chunks := by
  induction chunks generalizing s with
  | nil =>
    refine iff_of_false (fun hf => hf rfl) ?_
    exact Nat.not_le.mpr hp
  | cons f chunks ih =>
    unfold locate
    have ht : totalBytes (f :: chunks) = f.size + totalBytes chunks := rfl
    rw [ht]
    split_ifs with hh
    · exact iff_of_true (some_ne_none _) (by omega)
    · rw [ih (by omega)]
      omega

end

/-! ### Allocated memory -/

section

variable {unitSize sl a : Nat} {chunks cs : List MemChunk}

theorem Allocated.size_lt (ha : Allocated cs) : ∀ chunk ∈ cs, chunk.size < 2 ^ 63 := by
  intro chunk hi
  have := ha.nonnull chunk hi
  have := ha.lower chunk hi
  omega

variable {po : Nat}

theorem Allocated.eq_of_meet (hal : Allocated cs) {f s : MemChunk} (one : f ∈ cs)
    (ho : s ∈ cs) (hh : f.data ≤ po ∧ po < f.data + f.size)
    (ht : s.data ≤ po ∧ po < s.data + s.size) : f = s := by
  obtain ⟨i, low, rfl⟩ := mem_iff_getElem.mp one
  obtain ⟨p, hhi, rfl⟩ := mem_iff_getElem.mp ho
  have ha := pairwise_iff_getElem.mp hal.apart
  rcases Nat.lt_trichotomy i p with hb | hs | hbe
  · have := ha i p low hhi hb
    omega
  · subst hs
    rfl
  · have := ha p i hhi low hbe
    omega

def addresses (chunks : List MemChunk) : Finset Nat :=
  chunks.foldr (fun chunk rest => Finset.Ico chunk.data (chunk.data + chunk.size) ∪ rest) ∅

theorem mem_addresses : po ∈ addresses cs ↔
    ∃ chunk ∈ cs, chunk.data ≤ po ∧ po < chunk.data + chunk.size := by
  induction cs with
  | nil => simp [addresses]
  | cons chunk cs ih =>
    show po ∈ Finset.Ico chunk.data (chunk.data + chunk.size) ∪ addresses cs ↔ _
    rw [Finset.mem_union, Finset.mem_Ico, ih]
    simp

theorem card_addresses (ha : cs.Pairwise fun f s =>
    f.data + f.size ≤ s.data ∨ s.data + s.size ≤ f.data) :
    (addresses cs).card = totalBytes cs := by
  induction cs with
  | nil => rfl
  | cons chunk cs ih =>
    have hd : Disjoint (Finset.Ico chunk.data (chunk.data + chunk.size)) (addresses cs) := by
      rw [Finset.disjoint_left]
      intro po own ho
      obtain ⟨o, hi, ht⟩ := mem_addresses.mp ho
      have := rel_of_pairwise_cons ha hi
      have := Finset.mem_Ico.mp own
      omega
    show (Finset.Ico chunk.data (chunk.data + chunk.size) ∪ addresses cs).card =
      chunk.size + totalBytes cs
    rw [Finset.card_union_of_disjoint hd, ih ha.of_cons, Nat.card_Ico, Nat.add_sub_cancel_left]

theorem Allocated.total_lt (ha : Allocated cs) : totalBytes cs < 2 ^ 63 := by
  rw [← card_addresses ha.apart]
  have hw : addresses cs ⊆ Finset.Ico 1 (2 ^ 63) := by
    intro po hi
    obtain ⟨chunk, hm, low, hh⟩ := mem_addresses.mp hi
    have := ha.nonnull chunk hm
    have := ha.lower chunk hm
    exact Finset.mem_Ico.mpr ⟨by omega, by omega⟩
  have few := Finset.card_le_card hw
  rw [Nat.card_Ico] at few
  omega

/-- **The slots that are reported** are those that end within the memory. -/
theorem Allocated.reports_iff (ha : Allocated cs) (hp : 0 < unitSize) (hu : unitSize < 2 ^ 64) :
    Reports unitSize cs sl ↔ (sl + 1) * unitSize ≤ totalBytes cs := by
  have ht := ha.total_lt
  have hsi : ∀ chunk ∈ cs, chunk.size < 2 ^ 64 := fun chunk hi =>
    (ha.size_lt chunk hi).trans (by decide)
  have hf : ∀ o, (o + 1) * unitSize < 2 ^ 64 →
      (getElemByOffset cs unitSize o ≠ none ↔ (o + 1) * unitSize ≤ totalBytes cs) := by
    intro o hs
    rw [getElemByOffset_eq hu hsi hs, Ne, map_eq_none_iff]
    exact locate_ne_none (Nat.mul_pos (Nat.succ_pos _) hp)
  constructor
  · intro hr
    -- the first slot that does not end within the memory is not reported
    by_contra hpa
    have hfi : totalBytes cs / unitSize ≤ sl := by
      have := Nat.div_lt_of_lt_mul (show totalBytes cs < unitSize * (sl + 1) by
        rw [Nat.mul_comm]
        omega)
      omega
    have he := Nat.div_add_mod (totalBytes cs) unitSize
    have hb := Nat.mod_lt (totalBytes cs) hp
    have hpr : (totalBytes cs / unitSize + 1) * unitSize =
        unitSize * (totalBytes cs / unitSize) + unitSize := by
      rw [Nat.succ_mul, Nat.mul_comm]
    have hs : (totalBytes cs / unitSize + 1) * unitSize < 2 ^ 64 := by
      rcases Nat.lt_or_ge (totalBytes cs) unitSize with none | hso
      · rw [Nat.div_eq_of_lt none]
        omega
      · omega
    have := (hf _ hs).mp (hr _ hfi).1
    omega
  · intro he e le
    have hst : (e + 1) * unitSize ≤ (sl + 1) * unitSize := Nat.mul_le_mul_right _ (by omega)
    rw [updateInPlaceAt_eq, and_self, hf e (by omega)]
    omega

theorem Allocated.located (hal : Allocated cs) (hp : 0 < unitSize) (hu : unitSize < 2 ^ 64)
    (he : (sl + 1) * unitSize ≤ totalBytes cs) :
    ∃ i chunk rest, cs[i]? = some chunk ∧ border cs i + rest = (sl + 1) * unitSize ∧
      0 < rest ∧ rest ≤ chunk.size ∧ getElemByOffset cs unitSize sl =
        some ((chunk.data + (rest + 2 ^ 64 - unitSize) % 2 ^ 64) % 2 ^ 64) := by
  have hto := hal.total_lt
  have hs : 0 < (sl + 1) * unitSize := Nat.mul_pos (Nat.succ_pos _) hp
  have hsi : ∀ chunk ∈ cs, chunk.size < 2 ^ 64 := fun chunk hi =>
    (hal.size_lt chunk hi).trans (by decide)
  obtain ⟨⟨chunk, rest⟩, hf⟩ := ne_none_iff_exists'.mp ((locate_ne_none hs).mpr he)
  obtain ⟨i, ht, hsu, ha, hi⟩ := locate_spec hs hf
  refine ⟨i, chunk, rest, ht, hsu, ha, hi, ?_⟩
  rw [getElemByOffset_eq hu hsi (by omega), hf]
  rfl

/-- Every border between two chunks is one between two slots, or the slot across it is not within
the memory. -/
def Aligned (unitSize : Nat) (chunks : List MemChunk) : Prop :=
  ∀ index, 0 < index → index < chunks.length →
    unitSize ∣ border chunks index ∨
      totalBytes chunks < (border chunks index / unitSize + 1) * unitSize

theorem Allocated.across (hal : Allocated cs) {o : MemChunk}
    (own : chunk ∈ cs) (hm : o ∈ cs) (ha : 0 < tl) (hi : tl ≤ chunk.size)
    (hsh : tl < unitSize) (hu : unitSize < 2 ^ 63)
    (hp : a = (chunk.data + (tl + 2 ^ 64 - unitSize) % 2 ^ 64) % 2 ^ 64) :
    ¬ (o.data ≤ a ∧ a + unitSize ≤ o.data + o.size) := by
  intro hw
  have low := hal.lower o hm
  have hh := hal.lower chunk own
  rcases Nat.lt_or_ge (chunk.data + tl) unitSize with hwr | hpl
  · omega
  · have hb : a + unitSize = chunk.data + tl := by omega
    have hs : chunk = o := hal.eq_of_meet own hm ⟨Nat.le_refl _, by omega⟩ ⟨by omega, by omega⟩
    subst hs
    omega

theorem Aligned.begins (hal : Aligned unitSize cs) (hp : 0 < unitSize) {i : Nat}
    (he : (sl + 1) * unitSize ≤ totalBytes cs) (ht : i < cs.length)
    (hsu : border cs i + tl = (sl + 1) * unitSize) (ha : 0 < tl) : unitSize ≤ tl := by
  by_contra hs
  rw [Nat.succ_mul] at hsu he
  have hf : 0 < i := by
    rcases Nat.eq_zero_or_pos i with rfl | hf
    · rw [border_zero] at hsu
      omega
    · exact hf
  have hq : border cs i / unitSize = sl := by
    refine Nat.div_eq_of_lt_le (by omega) ?_
    rw [Nat.succ_mul]
    omega
  rcases hal i hf ht with ⟨c, hm⟩ | hpa
  · rw [hm, Nat.mul_div_cancel_left _ hp] at hq
    rw [hq, Nat.mul_comm] at hm
    omega
  · rw [hq, Nat.succ_mul] at hpa
    omega

/-- **Slots and borders.** -/
theorem Allocated.slotsApart_iff (hal : Allocated cs) (hp : 0 < unitSize)
    (hu : unitSize < 2 ^ 64) : SlotsApart unitSize cs ↔ Aligned unitSize cs := by
  have hto := hal.total_lt
  constructor
  · intro hsl i hfr ht
    by_contra hn
    obtain ⟨hap, hw⟩ := not_or.mp hn
    -- the slot across the border
    obtain ⟨sl, hq⟩ : ∃ sl, sl = border cs i / unitSize := ⟨_, rfl⟩
    rw [← hq] at hw
    have he : (sl + 1) * unitSize ≤ totalBytes cs := Nat.le_of_not_lt hw
    have low : sl * unitSize < border cs i := by
      have := Nat.div_add_mod (border cs i) unitSize
      have := Nat.emod_pos_of_not_dvd hap
      rw [hq, Nat.mul_comm]
      omega
    have hh : border cs i < (sl + 1) * unitSize := by
      rw [hq, Nat.mul_comm]
      exact Nat.lt_mul_div_succ _ hp
    obtain ⟨p, chunk, rest, hf, hsu, ha, hi, a⟩ := hal.located hp hu he
    have hl : i ≤ p := by
      by_contra hb
      have := @border_mono cs _ _ (show p + 1 ≤ i by omega)
      rw [border_succ hf] at this
      omega
    have hr := @border_mono cs _ _ hl
    rw [Nat.succ_mul] at hsu he
    obtain ⟨o, hm, hc⟩ := hsl.inside sl _
      ((hal.reports_iff hp hu).mpr (by rw [Nat.succ_mul]; exact he)) a
    exact hal.across (mem_of_getElem? hf) hm ha hi (by omega) (by omega) rfl hc
  · intro had
    -- a slot is in the chunk in which it ends
    have hlo : ∀ sl a, Reports unitSize cs sl →
        getElemByOffset cs unitSize sl = some a → ∃ i chunk, cs[i]? = some chunk ∧
          a + border cs i = chunk.data + sl * unitSize ∧ border cs i ≤ sl * unitSize ∧
          (sl + 1) * unitSize ≤ border cs i + chunk.size := by
      intro sl a hre hf
      have he := (hal.reports_iff hp hu).mp hre
      obtain ⟨i, chunk, rest, ht, hsu, ha, hi, p⟩ := hal.located hp hu he
      have hbg := had.begins hp he (List.getElem?_eq_some_iff.mp ht).1 hsu ha
      have hlw := hal.lower chunk (mem_of_getElem? ht)
      have hs := some.inj (hf.symm.trans p)
      refine ⟨i, chunk, ht, ?_⟩
      rw [Nat.succ_mul] at hsu he ⊢
      omega
    refine ⟨fun sl _ => updateInPlaceAt_eq, fun sl a hre hf => ?_,
      fun hfr s a o hfi hse hd hf hao => ?_⟩
    · obtain ⟨i, chunk, ht, p, low, hh⟩ := hlo sl a hre hf
      rw [Nat.succ_mul] at hh
      exact ⟨chunk, mem_of_getElem? ht, by omega, by omega⟩
    · obtain ⟨i, chunk, ht, p, low, hh⟩ := hlo hfr a hfi hf
      obtain ⟨i', c', ht', p', low', hh'⟩ := hlo s o hse hao
      rw [Nat.succ_mul] at hh hh'
      by_cases hs : i = i'
      · subst hs
        obtain rfl := some.inj (ht.symm.trans ht')
        rcases Nat.lt_or_gt_of_ne hd with hb | hbe
        · have := Nat.mul_le_mul_right unitSize (show hfr + 1 ≤ s by omega)
          rw [Nat.succ_mul] at this
          omega
        · have := Nat.mul_le_mul_right unitSize (show s + 1 ≤ hfr by omega)
          rw [Nat.succ_mul] at this
          omega
      · obtain ⟨low, rfl⟩ := List.getElem?_eq_some_iff.mp ht
        obtain ⟨low', rfl⟩ := List.getElem?_eq_some_iff.mp ht'
        have hap := pairwise_iff_getElem.mp hal.apart
        rcases Nat.lt_or_gt_of_ne hs with hb | hbe
        · have := hap i i' low low' hb
          omega
        · have := hap i' i low' low hbe
          omega

end

/-! ### Secondaries -/

section

variable {timesFactor : Nat → Nat} {unitSize capacity mem : Nat} {mems : List Nat}
    {memory : SlotMemory}

theorem slotsApart_zero (hl : mem ≤ 2 ^ 63) : SlotsApart 0 [⟨mem, 0⟩] := by
  have hf : ∀ sl, getElemByOffset [⟨mem, 0⟩] 0 sl = some mem := by
    intro sl
    simp only [getElemByOffset, getElemFrom, Nat.mul_zero, Nat.zero_mod, Nat.add_zero, Nat.le_refl,
      if_true,
      Option.some.injEq]
    omega
  refine ⟨fun sl _ => updateInPlaceAt_eq, fun sl a _ ht => ?_, fun f s a o _ _ _ ht ha => ?_⟩
  · rw [hf, Option.some.injEq] at ht
    exact ⟨_, mem_singleton_self _, by simp [ht]⟩
  · rw [hf, Option.some.injEq] at ht ha
    omega

/-- **The slots of a secondary**, for every initial capacity, unit size and number of growths. -/
theorem slots_apart_iff (unit : unitSize < 2 ^ 64)
    (grown : (SlotMemory.create unitSize capacity mem).grow timesFactor unitSize mems = some memory)
    (allocated : Allocated memory.data) : SlotsApart unitSize memory.data ↔
        Aligned unitSize memory.data := by
  rcases Nat.eq_zero_or_pos unitSize with rfl | hp
  · cases mems with
    | nil =>
      cases grown
      have hlo : mem + 0 ≤ 2 ^ 63 := allocated.lower _ mem_cons_self
      refine iff_of_true (slotsApart_zero hlo) fun i hf hl => ?_
      have : i < 1 := hl
      omega
    | cons hf mems =>
      unfold SlotMemory.grow SlotMemory.increaseCapacity at grown
      rw [foldlM_cons] at grown
      cases grown
  · exact allocated.slotsApart_iff hp unit

/-- Elements of eight bytes, at first four of them, and two growths. -/
theorem slots_apart_four : SlotsApart 8 [⟨4096, 32⟩, ⟨8192, 8⟩, ⟨12288, 16⟩] := by
  have hg : (SlotMemory.create 8 4 4096).grow (· * 2) 8 [8192, 12288] =
      some ⟨4, 12, [⟨4096, 32⟩, ⟨8192, 8⟩, ⟨12288, 16⟩]⟩ := rfl
  refine (slots_apart_iff (by decide) hg ⟨by decide, by decide, by decide⟩).mpr fun i hf hl => ?_
  change i < 3 at hl
  interval_cases i
  · exact .inl ⟨4, rfl⟩
  · exact .inl ⟨5, rfl⟩

/-- Five elements at first: after two growths the seventh is across a border, and taken to begin
four bytes in front of the third chunk. -/
theorem slot_in_front_of_chunk : (SlotMemory.create 8 5 4096).grow (· * 2) 8 [8192, 12288] =
      some ⟨5, 15, [⟨4096, 40⟩, ⟨8192, 12⟩, ⟨12288, 24⟩]⟩ ∧
    Reports 8 [⟨4096, 40⟩, ⟨8192, 12⟩, ⟨12288, 24⟩] 6 ∧
    getElemByOffset [⟨4096, 40⟩, ⟨8192, 12⟩, ⟨12288, 24⟩] 8 6 = some 12284 ∧
    updateInPlaceAt [⟨4096, 40⟩, ⟨8192, 12⟩, ⟨12288, 24⟩] 6 8 = some 12284 ∧
    ∀ chunk ∈ [(⟨4096, 40⟩ : MemChunk), ⟨8192, 12⟩, ⟨12288, 24⟩],
      ¬ (chunk.data ≤ 12284 ∧ 12284 + 8 ≤ chunk.data + chunk.size) := by
  refine ⟨rfl, ?_, rfl, rfl, by decide⟩
  unfold Reports
  decide

end

end Proteus.Oltp.Layout
