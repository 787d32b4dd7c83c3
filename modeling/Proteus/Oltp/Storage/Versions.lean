/-
**Version lists in memory.**

`Linked` reads a list of versions off the memory, newest first. What keeps it apart from the
versions of all other records is the allocator: memory handed out later can meet a version only in
the `alignof` bytes by which each copy sticks out of its chunk, and there it is the pointer to the
virtual functions that is written (`Overwrites`).

* `Overwrites.header`, `Overwrites.payload` — what a new version does to an old one.
* `getReadableVer_linked` — the walk finds the newest version the reader may see.
-/

import Proteus.Oltp.Storage.ColumnStore

namespace Proteus.Oltp.Storage

open Library List

/-- A record since the time it was written at. -/
structure Entry where
  start : Nat
  row : Row

/-- A version: its place, and the entry it keeps. -/
structure Version where
  region : Region
  offset : Nat
  entry : Entry

variable (config : Config)

namespace Version

def address (version : Version) : Nat :=
  config.dataMemoryBase version.region.deltaIdxPidPair + version.offset

def ptr (version : Version) : Nat :=
  DeltaDataPtr.make version.offset (config.tag version.region.delta) version.region

/-- Where the copy of the record is. -/
def data (version : Version) : Nat := version.address config + config.alignOf + versionSize

def Keeps (record : RecordId) (memory : Memory) (version : Version) : Prop :=
  memory.read (version.data config) (config.table record).recordSize = version.entry.row.flatten

end Version

def Linked (memory : Memory) : Nat → List Version → Prop
  | ptr, [] => ptr = 0
  | ptr, version :: versions =>
    ptr = version.ptr config ∧ versionTMin memory (version.address config) = version.entry.start ∧
      versionData memory (version.address config) = version.data config ∧
      Linked memory (versionNext memory (version.address config)) versions

/-- The addresses a walk from a pointer passes. -/
inductive OnList (memory : Memory) : Nat → Nat → Prop
  | here {ptr : Nat} (valid : isValid config ptr) : OnList memory ptr (getPtr config ptr)
  | next {ptr address : Nat} (valid : isValid config ptr)
      (rest : OnList memory (versionNext memory (getPtr config ptr)) address) :
        OnList memory ptr address

section

variable {config} {me : Memory} {v : Version} {vs : List Version} {ptr : Nat}

theorem not_isValid_zero : ¬ isValid config 0 :=
  config.tag_live _

theorem Version.isValid_ptr (v : Version) : isValid config (v.ptr config) := by
  simp [isValid, Version.ptr]

theorem Version.getPtr_ptr (hs : v.offset < 2 ^ 36) :
    getPtr config (v.ptr config) = v.address config := by
  rw [getPtr, if_pos v.isValid_ptr, Version.ptr, DeltaDataPtr.getDeltaIdxPidPair_make,
    DeltaDataPtr.getOffset_make, Nat.mod_eq_of_lt hs, Version.address]

section

variable (linked : Linked config me ptr vs)

include linked

theorem Linked.ptr_lt : ptr < 2 ^ 64 := by
  cases vs with
  | nil => exact linked ▸ by decide
  | cons v vs => exact linked.1 ▸ DeltaDataPtr.make_lt ..

theorem Linked.kept_ptr : (if isValid config ptr then ptr else 0) = ptr := by
  cases vs with
  | nil =>
    obtain rfl : ptr = 0 := linked
    exact if_neg not_isValid_zero
  | cons v vs => exact if_pos (linked.1 ▸ v.isValid_ptr)

theorem Linked.onList (hs : ∀ v ∈ vs, v.offset < 2 ^ 36) (hm : v ∈ vs) :
    OnList config me ptr (v.address config) := by
  induction vs generalizing ptr with
  | nil => cases hm
  | cons f tl ih =>
    obtain ⟨rfl, -, -, hn⟩ := linked
    have ha : getPtr config (f.ptr config) = f.address config :=
      Version.getPtr_ptr (hs f mem_cons_self)
    rcases mem_cons.mp hm with rfl | hm
    · exact ha ▸ .here v.isValid_ptr
    · refine .next f.isValid_ptr ?_
      rw [ha]
      exact ih hn (fun v hm => hs v (mem_cons_of_mem _ hm)) hm

theorem Linked.data_eq (hm : v ∈ vs) : versionData me (v.address config) = v.data config := by
  induction vs generalizing ptr with
  | nil => cases hm
  | cons f tl ih =>
    rcases mem_cons.mp hm with rfl | hm
    · exact linked.2.2.1
    · exact ih linked.2.2.2 hm

/-- **A list sees only its headers.** -/
theorem Linked.congr {o : Memory} (hs : ∀ v ∈ vs, ∀ p, v.address config + 8 ≤ p →
      p < v.address config + versionSize → o p = me p) :
    Linked config o ptr vs := by
  induction vs generalizing ptr with
  | nil => exact linked
  | cons f tl ih =>
    obtain ⟨hh, htm, hd, hn⟩ := linked
    have hw : ∀ s, 8 ≤ s → s + 8 ≤ versionSize →
        o.readWord (f.address config + s) = me.readWord (f.address config + s) :=
      fun s low hhi => Memory.readWord_congr fun p from_ hb =>
        hs f mem_cons_self p (by omega) (by omega)
    refine ⟨hh, (hw 8 (by decide) (by decide)).trans htm, (hw 24 (by decide) (by decide)).trans hd,
      ?_⟩
    rw [versionNext, hw 40 (by decide) (by decide)]
    exact ih hn fun v hm => hs v (mem_cons_of_mem _ hm)

/-- **The walk** finds the newest version the reader may see. -/
theorem getReadableVer_linked (hs : ∀ v ∈ vs, v.offset < 2 ^ 36) (r : TxnTs)
    {f : Nat} (he : vs.length < f) : getReadableVer config me r f ptr =
      match vs.find? fun v => r.isReadable v.entry.start with
      | some v => .ok (v.address config)
      | none => .error .nullVersion := by
  induction vs generalizing ptr f with
  | nil =>
    obtain ⟨f, rfl⟩ : ∃ m, f = m + 1 := ⟨f - 1, by simp at he; omega⟩
    obtain rfl : ptr = 0 := linked
    simp [getReadableVer, not_isValid_zero]
  | cons fi tl ih =>
    obtain ⟨f, rfl⟩ : ∃ m, f = m + 1 := ⟨f - 1, by simp at he; omega⟩
    obtain ⟨rfl, htm, -, hn⟩ := linked
    rw [getReadableVer, if_pos fi.isValid_ptr, Version.getPtr_ptr (hs fi mem_cons_self)]
    simp only [htm, List.find?_cons]
    by_cases hr : r.isReadable fi.entry.start
    · simp [hr]
    · rw [if_neg hr, ih hn (fun v hm => hs v (mem_cons_of_mem _ hm)) (by simpa using he)]
      simp [hr]

end

end

/-! ### What a new version overwrites -/

structure Overwrites (before after : Memory) (address total : Nat) : Prop where
  outside : ∀ place, place < address ∨ address + total + config.alignOf ≤ place →
    after place = before place
  vptr : ∀ place < 8, after (address + place) = config.vptr.getD place 0

section

variable {config} {b a : Memory} {ad t o sz : Nat} {p : Nat}
    (overwrites : Overwrites config b a ad t)

include overwrites

/-- **Headers are safe.** -/
theorem Overwrites.header (hl : versionSize ≤ sz) (ha : o + sz ≤ ad ∨ ad + t ≤ o)
    (low : o + 8 ≤ p) (hh : p < o + versionSize) : a p = b p := by
  have hal := config.alignOf_le
  exact overwrites.outside p (by omega)

/-- **A copy is safe** where its last bytes, if they are overwritten, are what is written there. -/
theorem Overwrites.payload (ha : o + sz ≤ ad ∨ ad + t ≤ o)
    (hs : ∀ p < config.alignOf, ad + p < o + config.alignOf + sz →
      o + config.alignOf + versionSize ≤ ad + p →
      b (ad + p) = config.vptr.getD p 0)
    (low : o + config.alignOf + versionSize ≤ p)
    (hh : p < o + config.alignOf + sz) : a p = b p := by
  have hal := config.alignOf_le
  by_cases hi : ad ≤ p ∧ p < ad + t + config.alignOf
  · obtain ⟨i, rfl⟩ := Nat.exists_eq_add_of_le hi.1
    have he : i < config.alignOf := by omega
    rw [overwrites.vptr i (by omega), hs i he hh low]
  · exact overwrites.outside p (by omega)

end

end Proteus.Oltp.Storage
