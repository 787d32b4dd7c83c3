/-
**The dirty masks of a lazy secondary** (`LazySecondary` in `lazy-column.cpp`,
`atomic_bit_set.hpp`).

A secondary has a bit for every slot, in packs of 8192. `updateElem` sets the bit of a slot when it
assigns it to a record. If there is no memory for the slot the secondary grows, and with it the
masks: one loop appends as many packs as there are new ones and resets as many, but it counts from
zero, so that the packs it resets are the first ones and not the new ones.

* `marked_addPacks` — what the loop leaves: the bits behind the first packs.
* `run_marks_iff` — a growth keeps the marks exactly if there are none in the packs it resets. After
  a run the marks are the assigned slots exactly if the secondary has never grown: if not more
  records were updated than the capacity it was created with.
-/

import Proteus.Oltp.Layout.LazyColumn

namespace Proteus.Oltp.Layout

open Library List Option Function

/-! ### Masks -/

/-- `AtomicBitSet<BIT_PACK_SIZE>` -/
abbrev BitPack := Nat → Bool

def BitPack.cleared : BitPack := fun _ => false

/-- Whether the bit of a slot is set. -/
def marked (packs : List BitPack) (slot : Nat) : Bool :=
  match packs[slot / bitPackSize]? with
  | some pack => pack (slot % bitPackSize)
  | none => false

/-- `set` for the bit of a slot. -/
def mark (packs : List BitPack) (slot : Nat) : List BitPack :=
  packs.modify (slot / bitPackSize) fun pack => Function.update pack (slot % bitPackSize) true

def addPack (packs : List BitPack) (bb : Nat) : List BitPack :=
  (packs ++ [BitPack.cleared]).set bb BitPack.cleared

def addPacks (packs : List BitPack) (numBitPacks : Nat) : List BitPack :=
  (List.range numBitPacks).foldl addPack packs

structure DirtyMasks where
  upd : List BitPack
  delete : List BitPack

/-- The loop, which does both masks in one go. -/
def DirtyMasks.extend (masks : DirtyMasks) (numBitPacks : Nat) : DirtyMasks :=
  ⟨addPacks masks.upd numBitPacks, addPacks masks.delete numBitPacks⟩

/-- A secondary with its masks. -/
structure MarkedSecondary where
  secondary : LazySecondary
  masks : DirtyMasks

namespace MarkedSecondary

variable (config : LazyConfig)

/-- The constructor. -/
def create (capacity : Nat) : MarkedSecondary where
  secondary := .create config capacity
  masks := DirtyMasks.extend ⟨[], []⟩ (numBitPacks (capacity * config.unitSize))

/-- The packs for the memory that `increaseCapacity(2)` adds. -/
def newPacks (sec : LazySecondary) : Nat :=
  numBitPacks (sec.capacity * 2 + sec.capacity * 2 % config.unitSize)

/-- `increaseCapacity(2)` -/
def increaseCapacity (sec : MarkedSecondary) : MarkedSecondary where
  secondary := sec.secondary.increaseCapacity config
  masks := sec.masks.extend (newPacks config sec.secondary)

def slot (vid : Nat) (sec : MarkedSecondary) : Option (Nat × MarkedSecondary) :=
  (sec.secondary.slot vid).map fun (internalVid, assigned) =>
    (internalVid, ⟨assigned, match sec.secondary.secIdx vid with
      | some _ => sec.masks
      | none => { sec.masks with upd := mark sec.masks.upd internalVid }⟩)

/-- What `updateElem` does with the active secondary. -/
def updateElem (vid : Nat) (elem : Option (List UInt8)) (sec : MarkedSecondary) :
    Option MarkedSecondary := do
  let (internalVid, sec) ← sec.slot vid
  let stop := elemStop config.unitSize internalVid
  let (data, done) ← updateChunks config.unitSize (elemBytes elem) sec.secondary.data stop
  if done then return { sec with secondary := { sec.secondary with data } }
  let grown := sec.increaseCapacity config
  let (data, done) ← updateChunks config.unitSize (elemBytes elem) grown.secondary.data stop
  if done then return { grown with secondary := { grown.secondary with data } }
  none

end MarkedSecondary

/-- The calls of `updateElem` on a secondary that was created with some capacity. -/
def markedSecondary (config : LazyConfig) (capacity : Nat) :
    Machine MarkedSecondary (Nat × Option (List UInt8)) where
  Start sec := sec = .create config capacity
  Enabled _ call := ∀ bytes ∈ call.2, bytes.length = config.unitSize
  next sec call := sec.updateElem config call.1 call.2

variable {config cf : LazyConfig}

/-! ### Bits -/

open Nat

section

variable {ps : List BitPack} {s o : Nat}

theorem slot_eq_iff : o = s ↔
    o / bitPackSize = s / bitPackSize ∧ o % bitPackSize = s % bitPackSize := by
  constructor
  · intro hs
    rw [hs]
    exact ⟨rfl, rfl⟩
  · intro hs
    rw [← div_add_mod o bitPackSize, hs.1, hs.2, div_add_mod]

theorem marked_mark (hi : s / bitPackSize < ps.length) :
    marked (mark ps s) o = true ↔ o = s ∨ marked ps o = true := by
  rw [slot_eq_iff]
  unfold marked mark
  rw [List.getElem?_modify]
  by_cases hs : o / bitPackSize = s / bitPackSize
  · rw [hs, List.getElem?_eq_getElem hi]
    simp only [Option.map_eq_map, Option.map_some, if_true, Function.update_apply, true_and]
    by_cases bit : o % bitPackSize = s % bitPackSize
    · simp [bit]
    · simp [bit]
  · simp only [if_neg (Ne.symm hs), Option.map_eq_map, Option.map_id', hs, false_and, false_or]

theorem addPacks_succ (c : Nat) : addPacks ps (c + 1) = addPack (addPacks ps c) c := by
  unfold addPacks
  rw [List.range_succ, List.foldl_append]
  rfl

theorem length_addPacks (c : Nat) : (addPacks ps c).length = ps.length + c := by
  induction c with
  | zero => rfl
  | succ c ih =>
    rw [addPacks_succ, addPack, length_set, length_append, ih]
    rfl

/-- **The loop resets the first packs**, whether they are new or not. -/
theorem getElem?_addPacks (c i : Nat) : (addPacks ps c)[i]? =
    if i < c ∨ ps.length ≤ i ∧ i < ps.length + c then some BitPack.cleared
    else ps[i]? := by
  induction c with
  | zero =>
    rw [if_neg (by omega)]
    rfl
  | succ c ih =>
    have hle := @length_addPacks ps c
    rw [addPacks_succ, addPack, List.getElem?_set, length_append, length_singleton, hle]
    by_cases hf : c = i
    · rw [if_pos hf, if_pos (by omega), if_pos (by omega)]
    rw [if_neg hf]
    by_cases hl : i = ps.length + c
    · rw [hl, ← hle, List.getElem?_concat_length, if_pos (by omega)]
    · by_cases he : i < ps.length + c
      · rw [List.getElem?_append_left (by omega), ih]
        exact if_congr (by omega) rfl rfl
      · have ho : (addPacks ps c ++ [BitPack.cleared]).length ≤ i := by
          rw [length_append, length_singleton, hle]
          omega
        rw [List.getElem?_eq_none ho, if_neg (by omega), List.getElem?_eq_none (by omega)]

theorem marked_addPacks (c : Nat) : marked (addPacks ps c) s = true ↔
    c ≤ s / bitPackSize ∧ marked ps s = true := by
  unfold marked
  rw [getElem?_addPacks]
  by_cases hr : s / bitPackSize < c
  · rw [if_pos (.inl hr)]
    simp [BitPack.cleared, Nat.not_le.mpr hr]
  · by_cases new : ps.length ≤ s / bitPackSize
    · rw [List.getElem?_eq_none new]
      split_ifs <;> simp [BitPack.cleared]
    · rw [if_neg (by omega)]
      simp [Nat.le_of_not_lt hr]

end

/-! ### What a call does -/

namespace MarkedSecondary

variable {sec ass a : MarkedSecondary} {vid iv : Nat} {e : Option (List UInt8)}

theorem slot_cases (hf : sec.slot vid = some (iv, ass)) :
    sec.secondary.secIdx vid = some iv ∧ ass = sec ∨
      sec.secondary.secIdx vid = none ∧ iv = sec.secondary.secondaryVid ∧
        iv / bitPackSize < sec.secondary.bitPacks ∧
        ass = ⟨{ sec.secondary with
          secondaryVid := iv + 1
          secIdx := update sec.secondary.secIdx vid (some iv) },
          { sec.masks with upd := mark sec.masks.upd iv }⟩ := by
  unfold slot LazySecondary.slot at hf
  cases hin : sec.secondary.secIdx vid with
  | some k =>
    simp only [hin, map_some, Option.some.injEq, Prod.mk.injEq] at hf
    obtain ⟨rfl, rfl⟩ := hf
    exact .inl ⟨rfl, rfl⟩
  | none =>
    simp only [hin] at hf
    split_ifs at hf with hi
    · simp only [map_some, Option.some.injEq, Prod.mk.injEq] at hf
      obtain ⟨rfl, rfl⟩ := hf
      exact .inr ⟨rfl, rfl, hi, rfl⟩
    · cases hf

theorem updateElem_cases (hu : sec.updateElem cf vid e = some a) :
    ∃ iv ass data, sec.slot vid = some (iv, ass) ∧
      (updateChunks cf.unitSize (elemBytes e) ass.secondary.data
          (elemStop cf.unitSize iv) = some (data, true) ∧
        a = ⟨{ ass.secondary with data }, ass.masks⟩ ∨
      updateChunks cf.unitSize (elemBytes e) ass.secondary.data
          (elemStop cf.unitSize iv) = some (ass.secondary.data, false) ∧
        a = ⟨{ ass.secondary.increaseCapacity cf with data },
          ass.masks.extend (newPacks cf ass.secondary)⟩) := by
  unfold updateElem at hu
  obtain ⟨⟨iv, ass⟩, hf, hu⟩ := bind_eq_some_iff.mp hu
  obtain ⟨⟨data, d⟩, hfi, hu⟩ := bind_eq_some_iff.mp hu
  cases d with
  | true =>
    cases hu
    exact ⟨iv, ass, data, hf, .inl ⟨hfi, rfl⟩⟩
  | false =>
    simp only [Bool.false_eq_true, if_false] at hu
    obtain ⟨⟨m, d⟩, hs, hu⟩ := bind_eq_some_iff.mp hu
    obtain rfl := updateChunks_false hfi
    cases d with
    | true =>
      cases hu
      exact ⟨iv, ass, m, hf, .inr ⟨hfi, rfl⟩⟩
    | false => cases hu

end MarkedSecondary

/-! ### Runs -/

section

variable {capacity ca vid : Nat} {vids v : List Nat} {e : Option (List UInt8)}
    {sec assigned after af : MarkedSecondary}

theorem numBitPacks_pos {sz : Nat} : 0 < numBitPacks sz ↔ 0 < sz := by
  unfold numBitPacks bitPackSize
  omega

/-- The slots that the records have got. -/
structure Assigned (vids : List Nat) (sec : MarkedSecondary) : Prop where
  known : ∀ vid, sec.secondary.secIdx vid ≠ none ↔ vid ∈ vids
  count : sec.secondary.secondaryVid = vids.toFinset.card
  below : ∀ vid slot, sec.secondary.secIdx vid = some slot → slot < sec.secondary.secondaryVid
  onto : ∀ slot < sec.secondary.secondaryVid, ∃ vid, sec.secondary.secIdx vid = some slot
  packs : sec.masks.upd.length = sec.secondary.bitPacks
  clean : ∀ slot, marked sec.masks.delete slot = false

structure Ungrown (config : LazyConfig) (capacity : Nat) (sec : MarkedSecondary) : Prop where
  unchanged : sec.secondary.capacity = capacity
  packs : sec.secondary.bitPacks = numBitPacks (capacity * config.unitSize)
  sizes : sec.secondary.data.map Chunk.size = [capacity * config.unitSize]
  marks : ∀ slot, marked sec.masks.upd slot = true ↔ slot < sec.secondary.secondaryVid

/-- A secondary that has grown has lost the mark of its first slot. -/
structure Grown (capacity : Nat) (sec : MarkedSecondary) : Prop where
  past : capacity < sec.secondary.secondaryVid
  lost : marked sec.masks.upd 0 = false

variable {iv : Nat}

open MarkedSecondary

theorem Assigned.slot (hr : Assigned v sec) (hf : sec.slot vid = some (iv, assigned)) :
    Assigned (v ++ [vid]) assigned ∧ iv < assigned.secondary.secondaryVid := by
  rcases slot_cases hf with ⟨hin, rfl⟩ | ⟨ha, rfl, hi, rfl⟩
  · have hm : vid ∈ v := (hr.known vid).mp (by rw [hin]; exact some_ne_none _)
    refine ⟨{ hr with known := fun o => ?_, count := ?_ }, hr.below vid iv hin⟩
    · rw [hr.known, mem_append, mem_singleton]
      exact ⟨.inl, fun hei => hei.elim id fun hs => hs ▸ hm⟩
    · rw [hr.count, toFinset_append, toFinset_cons, toFinset_nil, insert_empty_eq,
        Finset.union_singleton, Finset.insert_eq_of_mem (mem_toFinset.mpr hm)]
  · have hfr : vid ∉ v := fun hm => (hr.known vid).mpr hm ha
    refine ⟨⟨fun o => ?_, ?_, fun o s hk => ?_, fun s low => ?_, ?_, hr.clean⟩, Nat.lt_succ_self _⟩
    · show update sec.secondary.secIdx vid _ o ≠ none ↔ _
      rw [mem_append, mem_singleton]
      by_cases hs : o = vid
      · subst hs
        simp
      · rw [update_of_ne hs, hr.known]
        simp [hs]
    · show sec.secondary.secondaryVid + 1 = _
      rw [hr.count, toFinset_append, toFinset_cons, toFinset_nil, insert_empty_eq,
        Finset.union_singleton, Finset.card_insert_of_notMem (by rwa [List.mem_toFinset])]
    · show s < sec.secondary.secondaryVid + 1
      change update sec.secondary.secIdx vid _ o = some s at hk
      by_cases hs : o = vid
      · subst hs
        rw [update_self] at hk
        exact (some.inj hk) ▸ Nat.lt_succ_self _
      · rw [update_of_ne hs] at hk
        exact (hr.below o s hk).trans (Nat.lt_succ_self _)
    · rcases Nat.lt_succ_iff_lt_or_eq.mp low with he | rfl
      · obtain ⟨o, hk⟩ := hr.onto s he
        have haw : o ≠ vid := by
          intro hs
          rw [hs, ha] at hk
          cases hk
        exact ⟨o, (update_of_ne haw ..).trans hk⟩
      · exact ⟨vid, update_self ..⟩
    · show (mark sec.masks.upd _).length = _
      rw [mark, length_modify]
      exact hr.packs

theorem Ungrown.slot (hu : Ungrown cf ca sec) (hr : Assigned v sec)
    (hf : sec.slot vid = some (iv, assigned)) : Ungrown cf ca assigned := by
  rcases slot_cases hf with ⟨hin, rfl⟩ | ⟨ha, rfl, hi, rfl⟩
  · exact hu
  · refine { hu with marks := fun s => ?_ }
    show marked (mark sec.masks.upd sec.secondary.secondaryVid) s = true ↔
      s < sec.secondary.secondaryVid + 1
    rw [marked_mark (by rwa [hr.packs]), hu.marks]
    omega

theorem Grown.slot (hg : Grown ca sec) (hr : Assigned v sec)
    (hf : sec.slot vid = some (iv, assigned)) : Grown ca assigned := by
  rcases slot_cases hf with ⟨hin, rfl⟩ | ⟨ha, rfl, hi, rfl⟩
  · exact hg
  · refine ⟨hg.past.trans (lt_succ_self _), Bool.eq_false_iff.mpr fun hfi => ?_⟩
    rcases (marked_mark (by rwa [hr.packs])).mp hfi with hs | hb
    · have := hg.past
      omega
    · exact nomatch hg.lost.symm.trans hb

theorem stop_le_iff : elemStop cf.unitSize iv ≤ ca * cf.unitSize ↔ iv < ca := by
  unfold elemStop
  rw [← Nat.succ_mul, Nat.mul_le_mul_right_iff cf.unitSize_pos, Nat.succ_le_iff]

theorem Ungrown.write {da : List Chunk} {d : Bool} (hu : Ungrown cf ca sec)
    (hw : updateChunks cf.unitSize (elemBytes e) sec.secondary.data
      (elemStop cf.unitSize iv) = some (da, d)) :
    (d = true ↔ iv < ca) ∧ da.map Chunk.size = [ca * cf.unitSize] := by
  obtain ⟨c, hsi, hs⟩ := map_eq_singleton_iff.mp hu.sizes
  rw [hsi] at hw
  rcases updateChunks_cons hw with ⟨hh, _, rfl, rfl⟩ | ⟨hp, tl, rfl, hd⟩
  · rw [hs, stop_le_iff] at hh
    exact ⟨iff_of_true rfl hh, by rw [← hs]; rfl⟩
  · rw [hs] at hp
    obtain ⟨rfl, rfl⟩ := Prod.mk.inj (some.inj hd)
    refine ⟨iff_of_false Bool.false_ne_true fun hi => ?_, by rw [← hs]; rfl⟩
    exact absurd (stop_le_iff.mpr hi) (not_le.mpr hp)

/-- **One call**: a secondary grows with the first record that is one too many. -/
theorem step_marks (hre : Assigned v sec)
    (hp : Ungrown cf ca sec ∧ sec.secondary.secondaryVid ≤ ca ∨ Grown ca sec)
    (hu : sec.updateElem cf vid e = some af) :
    Assigned (v ++ [vid]) af ∧
      (Ungrown cf ca af ∧ af.secondary.secondaryVid ≤ ca ∨ Grown ca af) := by
  obtain ⟨iv, assigned, d, hf, ⟨hw, rfl⟩ | ⟨hfu, rfl⟩⟩ := MarkedSecondary.updateElem_cases hu
  · obtain ⟨hre', own⟩ := hre.slot hf
    refine ⟨{ hre' with }, ?_⟩
    rcases hp with ⟨hun, hr⟩ | hg
    · have hun' := hun.slot hre hf
      obtain ⟨hi, hs⟩ := hun'.write hw
      refine .inl ⟨{ hun' with sizes := hs }, ?_⟩
      have low := hi.mp rfl
      rcases MarkedSecondary.slot_cases hf with ⟨_, rfl⟩ | ⟨_, _, _, rfl⟩
      · exact hr
      · exact low
    · have hg' := hg.slot hre hf
      exact .inr ⟨hg'.past, hg'.lost⟩
  · obtain ⟨hre', own⟩ := hre.slot hf
    have hpc :
      (addPacks assigned.masks.upd (MarkedSecondary.newPacks cf assigned.secondary)).length =
        assigned.secondary.bitPacks + MarkedSecondary.newPacks cf assigned.secondary := by
      rw [length_addPacks, hre'.packs]
    have hc : ∀ s, marked (addPacks assigned.masks.delete
        (MarkedSecondary.newPacks cf assigned.secondary)) s = false := by
      intro s
      refine Bool.eq_false_iff.mpr fun set => ?_
      exact nomatch (hre'.clean s).symm.trans (marked_addPacks _ |>.mp set).2
    refine ⟨⟨hre'.known, hre'.count, hre'.below, hre'.onto, hpc, hc⟩, .inr ?_⟩
    rcases hp with ⟨hun, hr⟩ | hg
    · have hun' := hun.slot hre hf
      have ho : ¬ iv < ca := fun hi =>
        Bool.false_ne_true ((hun'.write hfu).1.mpr hi)
      refine ⟨(Nat.not_lt.mp ho).trans_lt own, Bool.eq_false_iff.mpr fun hfi => ?_⟩
      -- the slot has a pack, so the secondary is not an empty one
      have hpa : 0 < numBitPacks (ca * cf.unitSize) := by
        rcases MarkedSecondary.slot_cases hf with ⟨hin, _⟩ | ⟨_, _, hi, _⟩
        · have := hre.below vid iv hin
          omega
        · rw [← hun.packs]
          exact Nat.zero_lt_of_lt hi
      have new : 0 < MarkedSecondary.newPacks cf assigned.secondary := by
        rw [MarkedSecondary.newPacks, numBitPacks_pos, hun'.unchanged]
        have := Nat.pos_of_mul_pos_right (numBitPacks_pos.mp hpa)
        omega
      have := (marked_addPacks _ |>.mp hfi).1
      simp only [Nat.zero_div] at this
      omega
    · have hg' := hg.slot hre hf
      refine ⟨hg'.past, Bool.eq_false_iff.mpr fun hfi => ?_⟩
      exact nomatch hg'.lost.symm.trans (marked_addPacks _ |>.mp hfi).2

theorem marked_cleared (c s : Nat) : marked (addPacks [] c) s = false := by
  refine Bool.eq_false_iff.mpr fun set => ?_
  have hn := (marked_addPacks c |>.mp set).2
  simp [marked] at hn

theorem run_marks {cs : List (Nat × Option (List UInt8))}
    (run : (markedSecondary cf ca).Run (fun _ _ => True) cs sec) :
    Assigned (cs.map Prod.fst) sec ∧
      (Ungrown cf ca sec ∧ sec.secondary.secondaryVid ≤ ca ∨ Grown ca sec) := by
  induction run with
  | start hi =>
    subst hi
    refine ⟨⟨fun vid => by simp [create, LazySecondary.create], rfl, nofun, nofun, ?_,
      fun s => marked_cleared _ s⟩, .inl ⟨⟨rfl, rfl, rfl, fun s => ?_⟩, zero_le _⟩⟩
    · exact (length_addPacks _).trans (zero_add _)
    · exact iff_of_false (Bool.eq_false_iff.mp (marked_cleared _ s)) (not_lt_zero s)
  | step _ _ _ ht ih =>
    rw [map_append]
    exact step_marks ih.1 ih.2 ht

/-- What a growth is to do to a mask. -/
def KeepsMarks (before after : List BitPack) : Prop :=
  ∀ slot, marked after slot = true ↔ marked before slot = true

/-- **Marks and growth.** A growth keeps the update marks if there are none in the packs it resets,
and the delete marks always; after a run the marks are the assigned slots if there was no growth,
that is, if at most as many records were updated as the capacity says. -/
theorem run_marks_iff {calls : List (Nat × Option (List UInt8))}
    (run : (markedSecondary config capacity).Run (fun _ _ => True) calls sec) :
    (KeepsMarks sec.masks.upd (sec.increaseCapacity config).masks.upd ∧
        KeepsMarks sec.masks.delete (sec.increaseCapacity config).masks.delete ↔
      ∀ slot, marked sec.masks.upd slot = true →
        numBitPacks (sec.secondary.capacity * 2 + sec.secondary.capacity * 2 % config.unitSize) ≤
          slot / bitPackSize) ∧
    ((∀ slot, marked sec.masks.upd slot = true ↔ ∃ vid, sec.secondary.secIdx vid = some slot) ↔
      (calls.map Prod.fst).toFinset.card ≤ capacity) := by
  obtain ⟨hre, hp⟩ := run_marks run
  refine ⟨⟨fun hke slot set => ?_, fun hb => ⟨fun slot => ?_, fun slot => ?_⟩⟩, ?_⟩
  · exact (marked_addPacks _ |>.mp ((hke.1 slot).mpr set)).1
  · exact (marked_addPacks _).trans ⟨And.right, fun set => ⟨hb slot set, set⟩⟩
  · refine (marked_addPacks _).trans ⟨And.right, fun set => ?_⟩
    exact nomatch (hre.clean slot).symm.trans set
  · rw [← hre.count]
    rcases hp with ⟨hu, hr⟩ | hg
    · refine iff_of_true (fun slot => ?_) hr
      rw [hu.marks]
      exact ⟨hre.onto slot, fun assigned => assigned.elim fun vid hk => hre.below vid slot hk⟩
    · refine iff_of_false (fun he => ?_) (not_le.mpr hg.past)
      have hf := (he 0).mpr (hre.onto 0 (zero_lt_of_lt hg.past))
      exact nomatch hg.lost.symm.trans hf

def demoMarked : MarkedSecondary := .create demoLazyConfig 2

def demoCalls (count : Nat) : List (Nat × Option (List UInt8)) :=
  (List.range count).map fun vid => (vid, some (Memory.wordBytes 7))

theorem demoCalls_run {c : Nat} {af : MarkedSecondary}
    (hf : (markedSecondary demoLazyConfig 2).follow (fun _ ca => ca.2.all (·.length = 8)) demoMarked
      (demoCalls c) = some af) :
    (markedSecondary demoLazyConfig 2).Run (fun _ _ => True) (demoCalls c) af := by
  have hs : (markedSecondary demoLazyConfig 2).Run (fun _ _ => True) [] demoMarked := .start rfl
  refine hs.extend (Machine.Path.of_follow (fun _ ca hp => ⟨?_, trivial⟩) hf)
  intro bs hg
  rw [show ca.2 = some bs from hg] at hp
  show bs.length = 8
  simpa using hp

/-- Two records have their marks. -/
theorem run_marks_two : ∃ sec, (markedSecondary demoLazyConfig 2).Run (fun _ _ => True)
    (demoCalls 2) sec ∧
    ∀ slot, marked sec.masks.upd slot = true ↔ ∃ vid, sec.secondary.secIdx vid = some slot := by
  obtain ⟨sec, hf⟩ := isSome_iff_exists.mp (show ((markedSecondary demoLazyConfig 2).follow
    (fun _ c => c.2.all (·.length = 8)) demoMarked (demoCalls 2)).isSome = true by decide +kernel)
  exact ⟨sec, demoCalls_run hf, (run_marks_iff (demoCalls_run hf)).2.mpr (by decide)⟩

/-- The third record makes the secondary grow, and none of the three is marked. -/
theorem growth_loses_marks : ∃ sec, (markedSecondary demoLazyConfig 2).Run (fun _ _ => True)
    (demoCalls 3) sec ∧
    sec.secondary.secIdx 0 = some 0 ∧ sec.secondary.secIdx 1 = some 1 ∧
      sec.secondary.secIdx 2 = some 2 ∧
    marked sec.masks.upd 0 = false ∧ marked sec.masks.upd 1 = false ∧
        marked sec.masks.upd 2 = false := by
  obtain ⟨sec, hf⟩ := isSome_iff_exists.mp (show ((markedSecondary demoLazyConfig 2).follow
    (fun _ c => c.2.all (·.length = 8)) demoMarked (demoCalls 3)).isSome = true by decide +kernel)
  refine ⟨sec, demoCalls_run hf, ?_⟩
  have hr : ((markedSecondary demoLazyConfig 2).follow
      (fun _ c => c.2.all (·.length = 8)) demoMarked (demoCalls 3)).all (fun sec =>
        sec.secondary.secIdx 0 = some 0 ∧ sec.secondary.secIdx 1 = some 1 ∧
          sec.secondary.secIdx 2 = some 2 ∧
        marked sec.masks.upd 0 = false ∧ marked sec.masks.upd 1 = false ∧
        marked sec.masks.upd 2 = false) = true := by
    decide +kernel
  rw [hf] at hr
  simpa using hr

end

end Proteus.Oltp.Layout
