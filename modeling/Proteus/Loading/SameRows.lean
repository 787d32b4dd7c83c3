/-
**The columns of a relation are cut at the same rows**, or are they?

The block scan takes the partition sizes of one column for all columns of a relation
(`getTuplesPerPartition`), so the files of its columns, of type sizes `2 ^ i` and `2 ^ j`, should
have the same number of segments with the same rows in them, and no segment should reach past the
end of its file.

`loadToCpus`, `loadToGpus` and `loadDistributed` cut both files in units of which a row has four,
the type size being four units: they agree as soon as there are devices to divide by and no type is
narrower than four bytes, where the unit has no bytes. `loadEverywhere` scales the parts of a file
up without having scaled the file down. Its segments pass the end of the file for a type wider than
four bytes and are empty for a narrower one, and an empty segment cannot be mapped for a GPU.

* `scaled_sameRows` — one cut, scaled to two type sizes, has the same rows in both.
* `everywhere_sameRows_iff` — when the segments of `loadEverywhere` do.
* `loads_cut_alike_iff` — when the columns are cut at the same rows, for every mode.
-/

import Proteus.Loading.StorageManager

namespace Proteus.Loading

open Library List

/-! ### The load modes -/

/-- The modes that cut a file, with what they ask the topology and the network for. -/
inductive LoadMode where
  | toCpus (numaNodes : Nat)
  | toGpus (gpus : Nat)
  | distributed (servers serverId numaNodes : Nat)
  | everywhere (numaNodes gpus : Nat) (prefGpuWeight prefCpuWeight : Int)
deriving DecidableEq, Repr

/-- The segments of a file in a mode. -/
def LoadMode.load (platform : Platform) (typeSize fileBytes : Nat) : LoadMode → Option (List Span)
  | toCpus numaNodes => loadToCpus platform numaNodes typeSize fileBytes 0
  | toGpus gpus => loadToGpus platform gpus typeSize fileBytes 0
  | distributed servers serverId numaNodes =>
    loadDistributed platform servers serverId numaNodes typeSize fileBytes
  | everywhere numaNodes gpus prefGpuWeight prefCpuWeight =>
    loadEverywhere platform numaNodes gpus prefGpuWeight prefCpuWeight typeSize fileBytes

/-- The segments of two columns hold the same rows, and those of no column pass the end of its
file. -/
structure SameRows (rows s t : Nat) (first second : List Span) : Prop where
  alike : List.Forall₂ (fun a b => a.size * t = b.size * s ∧ a.offset * t = b.offset * s) first
    second
  firstInside : ∀ span ∈ first, span.offset + span.size ≤ rows * s
  secondInside : ∀ span ∈ second, span.offset + span.size ≤ rows * t

theorem SameRows.symm {r s t : Nat} {f se : List Span} (hs : SameRows r s t f se) :
    SameRows r t s se f :=
  ⟨hs.alike.flip.imp fun _ _ he => ⟨he.1.symm, he.2.symm⟩, hs.secondInside, hs.firstInside⟩

/-- Both columns are loaded, and cut at the same rows. -/
def LoadMode.CutsAlike (platform : Platform) (rows s t : Nat) (mode : LoadMode) : Prop :=
  ∃ first second, mode.load platform s (rows * s) = some first ∧
    mode.load platform t (rows * t) = some second ∧ SameRows rows s t first second

/-- When they are. -/
def LoadMode.Aligned (platform : Platform) (rows s t : Nat) : LoadMode → Prop
  | toCpus numaNodes => 0 < numaNodes ∧ 4 ≤ s ∧ 4 ≤ t
  | toGpus gpus => 0 < gpus ∧ 4 ≤ s ∧ 4 ≤ t
  | distributed servers _ numaNodes => (0 < servers ∧ 0 < numaNodes) ∧ 4 ≤ s ∧ 4 ≤ t
  | everywhere numaNodes gpus prefGpuWeight prefCpuWeight =>
    let devices := everywhereDevices numaNodes gpus prefGpuWeight prefCpuWeight
    let reached := fun bytes => takers platform.packAlignment bytes devices.toNat
    0 < devices ∧
      (rows = 0 ∨ (s = 4 ∧ t = 4) ∨ (s < 4 ∧ t < 4 ∧ reached (rows * s) = reached (rows * t) ∧
      reached (rows * s) ≤ everywhereSockets numaNodes prefCpuWeight))

/-! ### Loads in units -/

variable {sps : List Span} {typeSize ts numaNodes nn fileBytes fb : Nat}

open Nat

section

variable {pl : Platform} {r f g : Nat}

/-- **One cut at two scales**: it holds the same rows of columns of `4 * f` and of `4 * g` bytes. -/
theorem scaled_sameRows {b : Nat} (hi : ∀ s ∈ sps, b + s.offset + s.size ≤ r * 4) :
    SameRows r (4 * f) (4 * g) (sps.map (Span.move f (b * f))) (sps.map (Span.move g (b * g))) := by
  have hw : ∀ fa, ∀ s ∈ sps.map (Span.move fa (b * fa)), s.offset + s.size ≤ r * (4 * fa) := by
    intro fa s hm
    obtain ⟨p, from_cut, rfl⟩ := mem_map.mp hm
    calc p.offset * fa + b * fa + p.size * fa = (b + p.offset + p.size) * fa := by ring
      _ ≤ r * 4 * fa := mul_le_mul_right fa (hi p from_cut)
      _ = r * (4 * fa) := mul_assoc ..
  refine ⟨?_, hw f, hw g⟩
  rw [forall₂_map_left_iff, forall₂_map_right_iff, forall₂_same]
  intro p _
  simp only [Span.move]
  refine ⟨by ring, by ring⟩

theorem loadParts_narrow (ds p o : Nat) (hn : ts < 4) : loadParts pl ds ts p o = none := by
  simp [loadParts, div_eq_of_lt hn, divide_zero]

theorem loadParts_nowhere (ts p o : Nat) : loadParts pl 0 ts p o = none := by
  unfold loadParts
  rcases Nat.eq_zero_or_pos (ts / 4) with hz | hp
  · simp [hz, divide_zero]
  · simp [divide_pos _ hp, partSize_zero]

theorem loadParts_units {ds : Nat} (devices_pos : 0 < ds) (hp : 0 < f) :
    loadParts pl ds (4 * f) (r * (4 * f)) 0 = some
      ((cut (roundedPart pl.packAlignment (r * 4) ds) (r * 4) ds).map (Span.move f (0 * f))) := by
  have hf : 4 * f / 4 = f := Nat.mul_div_cancel_left f (by decide)
  rw [loadParts_eq _ _ devices_pos (by omega), hf, ← Nat.mul_assoc, Nat.mul_div_cancel _ hp,
    Nat.zero_mul]

/-- **Loading on the devices of one kind.** -/
theorem loadParts_alike_iff (ds : Nat) {s t : Nat} (s_whole : s < 4 ∨ 4 ∣ s)
    (t_whole : t < 4 ∨ 4 ∣ t) :
    (∃ fi se, loadParts pl ds s (r * s) 0 = some fi ∧
      loadParts pl ds t (r * t) 0 = some se ∧ SameRows r s t fi se) ↔
    0 < ds ∧ 4 ≤ s ∧ 4 ≤ t := by
  refine ⟨?_, ?_⟩
  · rintro ⟨fi, se, first_loaded, second_loaded, -⟩
    refine ⟨pos_of_ne_zero ?_, not_lt.mp fun hn => ?_, not_lt.mp fun hn => ?_⟩
    · rintro rfl
      rw [loadParts_nowhere] at first_loaded
      cases first_loaded
    · rw [loadParts_narrow _ _ _ hn] at first_loaded
      cases first_loaded
    · rw [loadParts_narrow _ _ _ hn] at second_loaded
      cases second_loaded
  · rintro ⟨devices_pos, s_wide, t_wide⟩
    obtain ⟨f, rfl⟩ := s_whole.resolve_left (not_lt.mpr s_wide)
    obtain ⟨g, rfl⟩ := t_whole.resolve_left (not_lt.mpr t_wide)
    refine ⟨_, _, loadParts_units devices_pos (by omega), loadParts_units devices_pos (by omega),
      scaled_sameRows fun sp hm => ?_⟩
    have hi := (cut_tiles _ _ _).within hm
    omega

theorem loadDistributed_some {ss si : Nat} (hl : loadDistributed pl ss si nn ts fb = some sps) :
    4 ≤ ts ∧ 0 < ss ∧ 0 < nn := by
  unfold loadDistributed at hl
  refine ⟨not_lt.mp fun hn => ?_, pos_of_ne_zero ?_, pos_of_ne_zero ?_⟩
  · simp [div_eq_of_lt hn, divide_zero] at hl
  · rintro rfl
    simp [partSize_zero] at hl
  · rintro rfl
    simp [loadToCpus, loadParts_nowhere] at hl

theorem loadDistributed_units {ss si : Nat} (servers_pos : 0 < ss)
    (nodes_pos : 0 < nn) (hp : 0 < f) :
    loadDistributed pl ss si nn (4 * f) (r * (4 * f)) =
      some (serverSpans pl ss si nn f (r * 4)) := by
  have hf : 4 * f / 4 = f := Nat.mul_div_cancel_left f (by decide)
  have hl : loadDistributed pl ss si nn (4 * f) (r * 4 * (4 * f / 4)) = _ :=
    loadDistributed_eq (r * 4) servers_pos nodes_pos (by omega)
  rwa [hf, Nat.mul_assoc] at hl

/-- **Loading on the servers.** -/
theorem loadDistributed_alike_iff (ss si nn : Nat) {s t : Nat} (s_whole : s < 4 ∨ 4 ∣ s)
    (t_whole : t < 4 ∨ 4 ∣ t) :
    (∃ fi se, loadDistributed pl ss si nn s (r * s) = some fi ∧
      loadDistributed pl ss si nn t (r * t) = some se ∧ SameRows r s t fi se) ↔
    (0 < ss ∧ 0 < nn) ∧ 4 ≤ s ∧ 4 ≤ t := by
  refine ⟨?_, ?_⟩
  · rintro ⟨fi, se, first_loaded, second_loaded, -⟩
    obtain ⟨s_wide, servers_pos, nodes_pos⟩ := loadDistributed_some first_loaded
    exact ⟨⟨servers_pos, nodes_pos⟩, s_wide, (loadDistributed_some second_loaded).1⟩
  · rintro ⟨⟨servers_pos, nodes_pos⟩, s_wide, t_wide⟩
    obtain ⟨f, rfl⟩ := s_whole.resolve_left (not_lt.mpr s_wide)
    obtain ⟨g, rfl⟩ := t_whole.resolve_left (not_lt.mpr t_wide)
    refine ⟨_, _, loadDistributed_units servers_pos nodes_pos (by omega),
      loadDistributed_units servers_pos nodes_pos (by omega), scaled_sameRows fun sp hm => ?_⟩
    have hi := (cut_tiles _ _ _).within hm
    by_cases hr : roundedPart pl.packAlignment (r * 4) ss * si ≤ r * 4
    · omega
    · -- a server past the end of the file has no segments
      rw [Nat.sub_eq_zero_of_le (le_of_not_ge hr), Nat.min_zero, cut_nothing] at hm
      cases hm

end

/-! ### Loads everywhere -/

section

variable {platform : Platform} {r s t devices ds : Nat}

def everywhereSpans (platform : Platform) (devices typeSize fileBytes : Nat) : List Span :=
  (cut (roundedPart platform.packAlignment fileBytes devices) fileBytes devices).map
    (Span.move (typeSize / 4) 0)

/-- What `mmap` needs on GPUs: segments with bytes in them, or none of a GPU. -/
def Mapped (platform : Platform) (devices sockets typeSize fileBytes : Nat) : Prop :=
  4 ≤ typeSize ∨ takers platform.packAlignment fileBytes devices ≤ sockets

theorem mapped_iff (devices_pos : 0 < ds) {ss : Nat} :
    (∀ d < ds, roundedPart platform.packAlignment fb ds * d < fb → ss ≤ d →
      min (roundedPart platform.packAlignment fb ds)
        (fb - roundedPart platform.packAlignment fb ds * d) * (ts / 4) ≠ 0) ↔
    Mapped platform ds ss ts fb := by
  have hr := lt_takers_iff platform.packAlignment_pos devices_pos fb
  have few := takers_le platform.packAlignment_pos devices_pos fb
  refine ⟨fun hm => ?_, fun hm d hi ht hog => ?_⟩
  · by_contra hne
    obtain ⟨hn, hb⟩ := not_or.mp hne
    refine hm ss (by omega) ((hr ss).mp (not_le.mp hb)) le_rfl ?_
    rw [div_eq_of_lt (not_le.mp hn), mul_zero]
  · rcases hm with hw | hos
    · have part_pos := roundedPart_pos platform.packAlignment_pos devices_pos (zero_lt_of_lt ht)
      exact ne_of_gt (mul_pos (lt_min part_pos (by omega)) (by omega))
    · exact absurd ((hr d).mpr ht) (by omega)

theorem aligned_mapped (devices_pos : 0 < ds) {ss : Nat}
    (hag : r = 0 ∨ (s = 4 ∧ t = 4) ∨ (s < 4 ∧ t < 4 ∧ takers platform.packAlignment (r * s) ds =
      takers platform.packAlignment (r * t) ds ∧ takers platform.packAlignment (r * s) ds ≤ ss)) :
    Mapped platform ds ss s (r * s) ∧ Mapped platform ds ss t (r * t) := by
  rcases hag with rfl | ⟨s_four, t_four⟩ | ⟨-, -, ha, hos⟩
  · rw [Nat.zero_mul, Nat.zero_mul]
    have hn := takers_zero platform.packAlignment_pos devices_pos
    exact ⟨.inr (hn.trans_le (Nat.zero_le _)), .inr (hn.trans_le (Nat.zero_le _))⟩
  · exact ⟨.inl s_four.ge, .inl t_four.ge⟩
  · exact ⟨.inr hos, .inr (ha ▸ hos)⟩

variable {gp : Nat} {pgw pcw : Int}

theorem loadEverywhere_eq (hp : 0 < everywhereDevices nn gp pgw pcw)
    (hm : Mapped platform (everywhereDevices nn gp pgw pcw).toNat
      (everywhereSockets nn pcw) ts fb) :
    loadEverywhere platform nn gp pgw pcw ts fb = some
      (everywhereSpans platform (everywhereDevices nn gp pgw pcw).toNat ts fb) := by
  unfold loadEverywhere everywhereSpans
  generalize everywhereDevices nn gp pgw pcw = devices at *
  have devices_pos : 0 < devices.toNat := by omega
  have hc := (mapped_iff devices_pos).mpr hm
  simp [guard, le_of_lt hp, partSize_eq _ devices_pos, segments_eq, if_pos hc]

theorem loadEverywhere_some (hl : loadEverywhere platform nn gp pgw pcw ts fb = some sps) :
    0 < everywhereDevices nn gp pgw pcw ∧ Mapped platform (everywhereDevices nn gp pgw pcw).toNat
        (everywhereSockets nn pcw) ts fb := by
  unfold loadEverywhere at hl
  generalize everywhereDevices nn gp pgw pcw = devices at *
  rcases lt_trichotomy devices 0 with hn | rfl | hp
  · simp [guard, not_le.mpr hn] at hl
  · simp [partSize_zero] at hl
  · have devices_pos : 0 < devices.toNat := by omega
    refine ⟨hp, (mapped_iff devices_pos).mp (by_contra fun hu => ?_)⟩
    simp [guard, le_of_lt hp, partSize_eq _ devices_pos, if_neg hu] at hl

theorem exists_last_part (platform : Platform) (devices_pos : 0 < ds) {tt : Nat}
    (total_pos : 0 < tt) :
    ∃ sp ∈ cut (roundedPart platform.packAlignment tt ds) tt ds,
      sp.offset + sp.size = tt ∧ 0 < sp.size := by
  have ht := cut_tiles (roundedPart platform.packAlignment tt ds) tt ds
  rw [min_eq_left (le_roundedPart_mul platform.packAlignment_pos devices_pos tt)] at ht
  obtain ⟨sp, hm, hb, ha⟩ := (ht.covers (tt - 1)).mpr (by omega)
  have hi := ht.within hm
  exact ⟨sp, hm, by omega, by omega⟩

theorem everywhereSpans_narrow (fb : Nat) (hn : s < 4) :
    everywhereSpans platform ds s fb = List.replicate
      (cut (roundedPart platform.packAlignment fb ds) fb ds).length ⟨0, 0⟩ := by
  unfold everywhereSpans
  rw [div_eq_of_lt hn, eq_replicate_iff]
  simp [Span.move]

theorem everywhereSpans_inside (fb : Nat) :
    ∀ sp ∈ everywhereSpans platform ds 4 fb, sp.offset + sp.size ≤ fb := by
  intro sp hm
  obtain ⟨p, from_cut, rfl⟩ := mem_map.mp hm
  have hi := (cut_tiles _ _ _).within from_cut
  simp only [Span.move, Nat.div_self (show 0 < 4 by decide), Nat.mul_one, Nat.add_zero]
  omega

theorem everywhereSpans_outside (platform : Platform) (devices_pos : 0 < ds) (bytes_pos : 0 < fb)
    (hw : 2 ≤ s / 4) :
    ∃ sp ∈ everywhereSpans platform ds s fb, fb < sp.offset + sp.size := by
  obtain ⟨p, hm, hr, _⟩ := exists_last_part platform devices_pos bytes_pos
  refine ⟨_, mem_map_of_mem hm, ?_⟩
  calc fb < fb * 2 := by omega
    _ ≤ (p.offset + p.size) * (s / 4) := by
        rw [hr]
        exact mul_le_mul_left _ hw
    _ = p.offset * (s / 4) + 0 + p.size * (s / 4) := by ring

theorem forall₂_replicate {A B : Type} {R : A → B → Prop} {xs : List A} {c : Nat} {x : B}
    (hpa : List.Forall₂ R xs (List.replicate c x)) {a : A} (hm : a ∈ xs) : R a x := by
  obtain ⟨i, hb, rfl⟩ := getElem_of_mem hm
  have hp := hpa.get hb (hpa.length_eq ▸ hb)
  rwa [get_eq_getElem, get_eq_getElem, getElem_replicate] at hp

theorem narrow_not_sameRows (devices_pos : 0 < ds) (rows_pos : 0 < r) (t_pos : 0 < t) (hn : t < 4) :
    ¬ SameRows r 4 t (everywhereSpans platform ds 4 (r * 4))
      (everywhereSpans platform ds t (r * t)) := by
  intro hs
  have ha := hs.alike
  rw [everywhereSpans_narrow _ hn] at ha
  obtain ⟨p, hm, _, part_pos⟩ := exists_last_part platform devices_pos
    (mul_pos rows_pos (show 0 < 4 by decide))
  have hsi : p.size * (4 / 4) * t = 0 * 4 := (forall₂_replicate ha (mem_map_of_mem hm)).1
  have hb : 0 < p.size * (4 / 4) * t := mul_pos (mul_pos part_pos (by decide)) t_pos
  omega

/-- **When the segments of `loadEverywhere` hold the same rows**: there are none, all types have
four bytes, or both columns have the same number of empty segments. -/
theorem everywhere_sameRows_iff (platform : Platform) (r : Nat) (devices_pos : 0 < ds)
    (s_pos : 0 < s) (t_pos : 0 < t)
    (s_whole : s < 4 ∨ 4 ∣ s) (t_whole : t < 4 ∨ 4 ∣ t) :
    SameRows r s t (everywhereSpans platform ds s (r * s)) (everywhereSpans platform ds t (r * t)) ↔
    r = 0 ∨ (s = 4 ∧ t = 4) ∨ (s < 4 ∧ t < 4 ∧ takers platform.packAlignment (r * s) ds =
        takers platform.packAlignment (r * t) ds) := by
  have hl := length_cut_roundedPart platform.packAlignment_pos devices_pos
  refine ⟨fun hs => ?_, ?_⟩
  · rcases Nat.eq_zero_or_pos r with none_there | rows_pos
    · exact .inl none_there
    have s_small : s ≤ 4 := not_lt.mp fun hw => by
      obtain ⟨sp, hm, hp⟩ := everywhereSpans_outside (s := s) platform devices_pos
        (Nat.mul_pos rows_pos s_pos) (by omega)
      exact absurd (hs.firstInside sp hm) (not_le.mpr hp)
    have t_small : t ≤ 4 := not_lt.mp fun hw => by
      obtain ⟨sp, hm, hp⟩ := everywhereSpans_outside (s := t) platform devices_pos
        (Nat.mul_pos rows_pos t_pos) (by omega)
      exact absurd (hs.secondInside sp hm) (not_le.mpr hp)
    rcases lt_or_eq_of_le s_small with s_narrow | rfl <;> rcases lt_or_eq_of_le
      t_small with t_narrow | rfl
    · have hc := hs.alike.length_eq
      rw [everywhereSpans_narrow _ s_narrow, everywhereSpans_narrow _ t_narrow, length_replicate,
        length_replicate, hl, hl] at hc
      exact .inr (.inr ⟨s_narrow, t_narrow, hc⟩)
    · exact absurd hs.symm (narrow_not_sameRows devices_pos rows_pos s_pos s_narrow)
    · exact absurd hs (narrow_not_sameRows devices_pos rows_pos t_pos t_narrow)
    · exact .inr (.inl ⟨rfl, rfl⟩)
  · rintro (rfl | ⟨rfl, rfl⟩ | ⟨s_narrow, t_narrow, hc⟩)
    · simp only [Nat.zero_mul, everywhereSpans, cut_nothing, map_nil]
      exact ⟨.nil, by simp, by simp⟩
    · exact ⟨forall₂_same.mpr fun sp _ => ⟨rfl, rfl⟩, everywhereSpans_inside _,
        everywhereSpans_inside _⟩
    · rw [everywhereSpans_narrow _ s_narrow, everywhereSpans_narrow _ t_narrow, hl, hl, hc]
      refine ⟨forall₂_same.mpr fun sp hm => ?_, fun sp hm => ?_, fun sp hm => ?_⟩
      · simp [eq_of_mem_replicate hm]
      · simp [eq_of_mem_replicate hm]
      · simp [eq_of_mem_replicate hm]

end

/-! ### All modes -/

theorem two_pow_whole (i : Nat) : 2 ^ i < 4 ∨ 4 ∣ 2 ^ i := by
  rcases Nat.lt_or_ge i 2 with hn | hw
  · exact .inl (Nat.pow_lt_pow_right (by decide) hn)
  · exact .inr (Nat.pow_dvd_pow 2 hw)

/-- **Columns of `2 ^ i` and `2 ^ j` bytes are cut at the same rows** exactly when there are devices
to divide by and, but for loads everywhere, both types have at least four bytes. Everywhere, columns
with rows have to be of four bytes both, or have no bytes in their segments, of which none may be
for a GPU. -/
theorem loads_cut_alike_iff (platform : Platform) (rows i j : Nat) (mode : LoadMode) :
    mode.CutsAlike platform rows (2 ^ i) (2 ^ j) ↔ mode.Aligned platform rows (2 ^ i) (2 ^ j) := by
  have s_whole := two_pow_whole i
  have t_whole := two_pow_whole j
  cases mode with
  | toCpus numaNodes => exact loadParts_alike_iff numaNodes s_whole t_whole
  | toGpus g => exact loadParts_alike_iff g s_whole t_whole
  | distributed ss si numaNodes =>
    exact loadDistributed_alike_iff ss si numaNodes s_whole t_whole
  | everywhere numaNodes g pgw pcw =>
    have same_iff : ∀ ds, 0 < ds → _ := fun ds devices_pos =>
      everywhere_sameRows_iff platform rows devices_pos (Nat.two_pow_pos i)
        (Nat.two_pow_pos j) s_whole t_whole
    refine ⟨?_, ?_⟩
    · rintro ⟨f, s, first_loaded, second_loaded, hs⟩
      obtain ⟨hp, first_mapped⟩ := loadEverywhere_some first_loaded
      obtain ⟨-, second_mapped⟩ := loadEverywhere_some second_loaded
      rw [LoadMode.load, loadEverywhere_eq hp first_mapped, Option.some.injEq] at first_loaded
      rw [LoadMode.load, loadEverywhere_eq hp second_mapped, Option.some.injEq] at second_loaded
      rw [← first_loaded, ← second_loaded] at hs
      refine ⟨hp, ((same_iff _ (by omega)).mp hs).imp_right (Or.imp_right ?_)⟩
      rintro ⟨s_narrow, t_narrow, ha⟩
      exact ⟨s_narrow, t_narrow, ha, first_mapped.resolve_left (not_le.mpr s_narrow)⟩
    · rintro ⟨hp, hag⟩
      have devices_pos : 0 < (everywhereDevices numaNodes g pgw pcw).toNat := by omega
      have hm := aligned_mapped devices_pos hag
      refine ⟨_, _, loadEverywhere_eq hp hm.1, loadEverywhere_eq hp hm.2,
        (same_iff _ devices_pos).mpr (hag.imp_right (Or.imp_right ?_))⟩
      rintro ⟨s_narrow, t_narrow, ha, -⟩
      exact ⟨s_narrow, t_narrow, ha⟩

/-- One row, on a machine of one NUMA node without GPUs and with both weights one: the segment of
the eight-byte column is to have sixteen bytes. -/
theorem wide_column_passes_end : ¬ (LoadMode.everywhere 1 0 1 1).CutsAlike demoPlatform 1 (2 ^ 2)
    (2 ^ 3) := by
  rintro ⟨f, s, -, hl, hs⟩
  have hse : (LoadMode.everywhere 1 0 1 1).load demoPlatform (2 ^ 3) (1 * 2 ^ 3) = some
      [⟨0, 16⟩] := by
    decide
  obtain rfl : [⟨0, 16⟩] = s := Option.some.inj (hse.symm.trans hl)
  exact absurd (hs.secondInside ⟨0, 16⟩ (mem_singleton_self _)) (by decide)

end Proteus.Loading
