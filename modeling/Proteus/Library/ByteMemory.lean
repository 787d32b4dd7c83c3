/-
**Byte-addressed memory.**

Memory is a function from addresses to bytes. `write` stores a block of bytes, `read` loads one;
`readWord` and `writeWord` do so with the eight bytes of a little-endian word.

* `read_write_within` — reading inside a block that was just written.
* `read_congr` — a read sees nothing but its own range; `write_outside` is the frame of a write.
* `element_write_self`, `element_write_other`, `element_copy` — writing and copying elements of an
  array.
* `readWord_writeWord` — words round trip.
-/

import Mathlib.Tactic.IntervalCases
import Mathlib.Data.List.GetD

namespace Proteus.Library

open List

abbrev Memory := Nat → UInt8

namespace Memory

def read (memory : Memory) (address length : Nat) : List UInt8 :=
  (List.range length).map fun index => memory (address + index)

def write (memory : Memory) (address : Nat) (bytes : List UInt8) : Memory :=
  fun place =>
    if address ≤ place ∧ place < address + bytes.length then bytes.getD (place - address) 0
    else memory place

variable {memory m o : Memory} {address a p l : Nat} {bytes bs : List UInt8}

@[simp]
theorem length_read : (m.read a l).length = l := by
  simp [read]

variable {index i word w : Nat}

theorem getElem?_read (low : i < l) : (m.read a l)[i]? = some (m (a + i)) := by
  simp [read, low]

/-- **A read sees only its range.** -/
theorem read_congr (hs : ∀ p, a ≤ p → p < a + l → m p = o p) : m.read a l = o.read a l := by
  refine map_congr_left fun index hm => ?_
  have low := mem_range.mp hm
  exact hs _ (by omega) (by omega)

@[simp]
theorem write_nil (m : Memory) (a : Nat) : m.write a [] = m := by
  funext p
  exact if_neg (by simp only [length_nil]; omega)

/-- **The frame of a write.** -/
theorem write_outside (ho : p < a ∨ a + bs.length ≤ p) : m.write a bs p = m p :=
  if_neg (by omega)

theorem write_inside (low : a ≤ p) (hh : p < a + bs.length) : m.write a bs p = bs.getD (p - a) 0 :=
  if_pos ⟨low, hh⟩

/-- **Reading inside a block** that was just written. -/
theorem read_write_within (s : Nat) (hf : s + l ≤ bs.length) :
    (m.write a bs).read (a + s) l = (bs.drop s).take l := by
  refine ext_getElem? fun index => ?_
  by_cases low : index < l
  · rw [getElem?_read low, write_inside (by omega) (by omega), List.getElem?_take_of_lt low,
      List.getElem?_drop, Nat.add_assoc, Nat.add_sub_cancel_left, getD_eq_getElem?_getD,
      List.getElem?_eq_getElem (by omega), Option.getD_some]
  · rw [List.getElem?_eq_none (by rw [length_read]; omega),
      List.getElem?_eq_none (by rw [length_take]; omega)]

theorem read_write (m : Memory) (a : Nat) (bs : List UInt8) :
    (m.write a bs).read a bs.length = bs := by
  simpa using (read_write_within 0 (by simp) : (m.write a bs).read (a + 0) bs.length = _)

theorem read_write_outside {s : Nat} (ha : s + l ≤ a ∨ a + bs.length ≤ s) :
    (m.write a bs).read s l = m.read s l :=
  read_congr fun p low hh => write_outside (by omega)

open Nat

theorem read_within {t : Nat} (s : Nat) (hf : s + l ≤ t) :
    m.read (a + s) l = ((m.read a t).drop s).take l := by
  refine ext_getElem? fun index => ?_
  by_cases low : index < l
  · rw [getElem?_read low, List.getElem?_take_of_lt low, List.getElem?_drop,
      getElem?_read (by omega), add_assoc]
  · rw [List.getElem?_eq_none (by rw [length_read]; omega),
      List.getElem?_eq_none (by rw [length_take]; omega)]

theorem write_append (m : Memory) (a : Nat) (f s : List UInt8) :
    (m.write a f).write (a + f.length) s = m.write a (f ++ s) := by
  funext p
  simp only [write, length_append]
  by_cases low : a ≤ p
  · by_cases he : p < a + f.length
    · rw [if_neg (by omega), if_pos ⟨low, he⟩, if_pos ⟨low, by omega⟩,
        getD_append _ _ _ _ (by omega)]
    · by_cases hl : p < a + f.length + s.length
      · rw [if_pos ⟨by omega, hl⟩, if_pos ⟨low, by omega⟩, getD_append_right _ _ _ _ (by omega)]
        congr 1
        omega
      · rw [if_neg (by omega), if_neg (by omega), if_neg (by omega)]
  · rw [if_neg (by omega), if_neg (by omega), if_neg (by omega)]

theorem read_append (m : Memory) (a f s : Nat) :
    m.read a (f + s) = m.read a f ++ m.read (a + f) s := by
  unfold read
  rw [range_add, map_append, map_map]
  refine congrArg _ (map_congr_left fun index _ => ?_)
  rw [Function.comp, add_assoc]

theorem write_append_eq_iff (m : Memory) (a : Nat) (f s : List UInt8) :
    m.write a (f ++ s) = m.write a f ↔ m.read (a + f.length) s.length = s := by
  rw [← write_append]
  have hbe := read_write (m.write a f) (a + f.length) s
  have hb : (m.write a f).read (a + f.length) s.length =
      m.read (a + f.length) s.length := read_write_outside (.inr le_rfl)
  refine ⟨fun hs => ?_, fun ht => ?_⟩
  · rw [hs, hb] at hbe
    exact hbe
  · funext p
    by_cases hi : a + f.length ≤ p ∧ p < a + f.length + s.length
    · have low : p - (a + f.length) < s.length := by omega
      have hh : ((m.write a f).read (a + f.length) s.length)[_]? = _ := getElem?_read low
      rw [hb, ht, Nat.add_sub_cancel' hi.1] at hh
      rw [write_inside hi.1 hi.2, getD_eq_getElem?_getD, hh, Option.getD_some]
    · exact write_outside (by omega)

/-! ### Elements of one size -/

/-- An element of an array. -/
def element (memory : Memory) (size index : Nat) : List UInt8 :=
  memory.read (index * size) size

theorem element_write_other {sz o : Nat} (hap : i ≠ o) (hs : bs.length ≤ sz) :
    (m.write (i * sz) bs).element sz o = m.element sz o := by
  refine read_write_outside ?_
  rcases lt_or_gt_of_ne hap with hb | ha
  · have hn := mul_le_mul_right sz hb
    rw [succ_mul] at hn
    omega
  · have hn := mul_le_mul_right sz ha
    rw [succ_mul] at hn
    omega

theorem element_write_after {sz o : Nat} (hb : o < i) :
    (m.write (i * sz) bs).element sz o = m.element sz o := by
  refine read_write_outside (.inl ?_)
  rw [← succ_mul]
  exact mul_le_mul_right sz hb

/-- **Copying elements** to the same places of another array. -/
theorem element_copy (m s : Memory) (sz f c i : Nat) :
    (m.write (f * sz) (s.read (f * sz) (c * sz))).element sz i =
      if f ≤ i ∧ i < f + c then s.element sz i
        else m.element sz i := by
  unfold element
  split_ifs with hi
  · have p : i * sz = f * sz + (i - f) * sz := by
      rw [← Nat.add_mul, Nat.add_sub_cancel' hi.1]
    have hf : (i - f) * sz + sz ≤ c * sz := by
      rw [← Nat.succ_mul]
      exact Nat.mul_le_mul_right sz (by omega)
    rw [p, read_write_within _ (by rwa [length_read]), read_within _ hf]
  · refine read_write_outside ?_
    rw [length_read, ← Nat.succ_mul, ← Nat.add_mul]
    rcases not_and_or.mp hi with hb | ha
    · exact .inl (Nat.mul_le_mul_right sz (by omega))
    · exact .inr (Nat.mul_le_mul_right sz (by omega))

theorem element_write {sz : Nat} (m : Memory) (hsi : bs.length = sz) (i o : Nat) :
    (m.write (i * sz) bs).element sz o = if o = i then bs else m.element sz o := by
  subst hsi
  split_ifs with hs
  · rw [hs]
    exact read_write ..
  · exact element_write_other (Ne.symm hs) le_rfl

theorem element_write_element (m s : Memory) (sz i o : Nat) :
    (m.write (i * sz) (s.element sz i)).element sz o =
      if o = i then s.element sz o else m.element sz o := by
  have hsi : (s.element sz i).length = sz := length_read
  rw [element_write m hsi]
  split_ifs with hs
  · rw [hs]
  · rfl

/-! ### Words -/

/-- The bytes of a word, the lowest first. -/
def wordBytes (word : Nat) : List UInt8 :=
  (List.range 8).map fun index => UInt8.ofNat (word / 256 ^ index)

def bytesWord (bytes : List UInt8) : Nat :=
  bytes.foldr (fun byte rest => byte.toNat + 256 * rest) 0

def readWord (memory : Memory) (address : Nat) : Nat :=
  bytesWord (memory.read address 8)

def writeWord (memory : Memory) (address word : Nat) : Memory :=
  memory.write address (wordBytes word)

@[simp]
theorem length_wordBytes (w : Nat) : (wordBytes w).length = 8 := by
  simp [wordBytes]

theorem bytesWord_wordBytes (hs : w < 2 ^ 64) : bytesWord (wordBytes w) = w := by
  simp only [wordBytes, bytesWord, range_succ, range_zero, nil_append,
    map_cons, map_nil, cons_append, foldr_cons, foldr_nil,
    UInt8.toNat_ofNat']
  omega

theorem readWord_congr (hs : ∀ p, a ≤ p → p < a + 8 → m p = o p) : m.readWord a = o.readWord a :=
  congrArg bytesWord (read_congr hs)

/-- **Words round trip.** -/
theorem readWord_writeWord (m : Memory) (a : Nat) (hs : w < 2 ^ 64) :
    (m.writeWord a w).readWord a = w := by
  have bytes := read_write m a (wordBytes w)
  rw [length_wordBytes] at bytes
  rw [readWord, writeWord, bytes, bytesWord_wordBytes hs]

end Memory

end Proteus.Library
