/-
**Parsing text** (`olap/lib/util/functions.cpp`, `newlineAVX` and `atois`;
`olap/lib/plugins/csv-plugin.cpp`, `getFieldEndLLVM` and `readAsIntLLVM`).

A line is searched for its end, in vectors of 32 bytes or byte by byte, by what the processor has. A
field goes to the next delimiter, and its characters are taken for digits, by one routine for each
length.

* `newlines_agree_iff` — the two searches agree exactly if there is a newline to be found.
* `readAsInt_faithful_iff` — which decimal numbers are read as themselves, or refused.
-/

import Mathlib

namespace Proteus.Olap.Parsing

open List

/-! ### Newlines -/

def nl : UInt8 := 10

section

variable (target : Nat → UInt8)

def maskWord (testVec : Nat → UInt8) (i : Nat) : BitVec 32 :=
  let c (j : Nat) : BitVec 8 := if testVec (4 * i + j) = nl then .allOnes 8 else 0
  c 3 ++ c 2 ++ c 1 ++ c 0

def inVector (testVec : Nat → UInt8) : Option Nat :=
  (List.range 8).findSome? fun i =>
    if maskWord testVec i = 0 then none
    else (List.range 4).findSome? fun j => if testVec (4 * i + j) = nl then some (4 * i + j) else
      none

/-- The last loop of the AVX2 version, for the bytes that are left: the places read, and the
outcome. -/
def tail : Nat → Nat → List Nat × Except String Nat
  | 0, _ => ([], .error "No newline found")
  | left + 1, strIdx =>
    if target strIdx = nl then ([strIdx], .ok strIdx)
    else
      let (reads, outcome) := tail left (strIdx + 1)
      (strIdx :: reads, outcome)

def vectors (bytes : Nat) : Nat → Nat → List Nat × Except String Nat
  | 0, strIdx => tail target bytes strIdx
  | left + 1, strIdx =>
    let load := (List.range 32).map (strIdx + ·)
    match inVector fun place => target (strIdx + place) with
    | some place => (load, .ok (strIdx + place))
    | none =>
      let (reads, outcome) := vectors bytes left (strIdx + 32)
      (load ++ reads, outcome)

def newlineAvx2 (targetLength : Nat) : List Nat × Except String Nat :=
  vectors target (targetLength % 32) (targetLength / 32) 0

def newlineFrom : Nat → Nat → List Nat × Except String Nat
  | 0, i => ([i], .ok i)
  | left + 1, i =>
    if target i = nl then ([i], .ok i)
    else
      let (reads, outcome) := newlineFrom left (i + 1)
      (i :: reads, outcome)

def newlineScalar (targetLength : Nat) : List Nat × Except String Nat :=
    newlineFrom target targetLength 0

/-! The first newline from a place on. -/

def FirstFrom (start i : Nat) : Prop := start ≤ i ∧ target i = nl ∧ ∀ k, start ≤ k → k < i →
    target k ≠ nl

def NoneIn (start stop : Nat) : Prop := ∀ k, start ≤ k → k < stop → target k ≠ nl

/-- What a search of a part tells. -/
structure Finds (start stop : Nat) (outcome missing : Except String Nat) : Prop where
  first : ∀ i < stop, FirstFrom target start i → outcome = .ok i
  none : NoneIn target start stop → outcome = missing

variable {target} {st : Nat}

theorem Finds.later {s n : Nat} {o m : Except String Nat} (hst : s ≤ n)
    (hb : NoneIn target s n) (hf : Finds target n st o m) :
    Finds target s st o m where
  first i hs := fun ⟨_, hn, hl⟩ => hf.first i hs
    ⟨Nat.le_of_not_lt fun he => hb i (by assumption) he hn, hn, fun k low => hl k (hst.trans low)⟩
  none m := hf.none fun k low => m k (hst.trans low)

theorem Finds.here {s i : Nat} {m : Except String Nat} (hs : i < st)
    (hf : FirstFrom target s i) : Finds target s st (.ok i) m where
  first k _ := fun ⟨low, hn, hle⟩ => by
    obtain hl | he | hg := Nat.lt_trichotomy i k
    · exact absurd hf.2.1 (hle i hf.1 hl)
    · rw [he]
    · exact absurd hn (hf.2.2 k low hg)
  none m := absurd hf.2.1 (m i hf.1 hs)

theorem maskWord_eq_zero (tv : Nat → UInt8) (i : Nat) :
    maskWord tv i = 0 ↔ ∀ j < 4, tv (4 * i + j) ≠ nl := by
  have hb : ∀ a b c d : Bool, (if d then BitVec.allOnes 8 else 0) ++
    (if c then BitVec.allOnes 8 else 0) ++
      (if b then BitVec.allOnes 8 else 0) ++ (if a then BitVec.allOnes 8 else 0) = (0 : BitVec 32) ↔
      a = false ∧ b = false ∧ c = false ∧ d = false := by decide
  have hf := hb (tv (4 * i + 0) = nl) (tv (4 * i + 1) = nl) (tv (4 * i + 2) = nl)
    (tv (4 * i + 3) = nl)
  simp only [decide_eq_true_iff, decide_eq_false_iff_not] at hf
  refine hf.trans
    ⟨?_, fun all => ⟨all 0 (by decide), all 1 (by decide), all 2 (by decide), all 3 (by decide)⟩⟩
  rintro ⟨hfi, hs, ht, hfo⟩ j hsh
  interval_cases j <;> assumption

/-- **A vector** is searched like its bytes. -/
theorem inVector_eq (tv : Nat → UInt8) : inVector tv = (List.range 32).find? (tv · = nl) := by
  have hw (i : Nat) : (if maskWord tv i = 0 then none
      else (List.range 4).findSome? fun j => if tv (4 * i + j) = nl then some (4 * i + j) else
        none) =
      ((List.range 4).map (4 * i + ·)).find? (tv · = nl) := by
    split
    · rename_i hz
      have none := (maskWord_eq_zero tv i).mp hz
      exact (find?_eq_none.mpr (by simpa using none)).symm
    · rw [← findSome?_guard, findSome?_map]
      congr
      funext j
      simp [Option.guard]
  simp only [inVector, hw]
  rw [← find?_flatMap]
  rfl

theorem tail_finds (l si : Nat) (end_ : si + l = st) : (∀ p ∈ (tail target l si).1, p < st) ∧
      Finds target si st (tail target l si).2 (.error "No newline found") := by
  induction l generalizing si with
  | zero => exact ⟨by simp [tail], fun i hs hf => absurd hf.1 (by omega), fun _ => rfl⟩
  | succ l ih =>
    obtain ⟨hr, hfi⟩ := ih (si + 1) (by omega)
    rw [tail]
    split
    · rename_i hn
      exact ⟨by simp; omega, .here (by omega) ⟨le_rfl, hn, fun k low hh => absurd low (by omega)⟩⟩
    · rename_i ho
      exact ⟨by simp only [mem_cons, forall_eq_or_imp]; exact ⟨by omega, hr⟩,
        hfi.later (Nat.le_succ _) fun k low hh => (by omega : si = k) ▸ ho⟩

theorem vectors_finds (bs l si : Nat) (end_ : si + 32 * l + bs = st) :
    (∀ p ∈ (vectors target bs l si).1, p < st) ∧
      Finds target si st (vectors target bs l si).2 (.error "No newline found") := by
  induction l generalizing si with
  | zero => exact tail_finds bs si (by omega)
  | succ l ih =>
    obtain ⟨hr, hfi⟩ := ih (si + 32) (by omega)
    have hlo : ∀ p ∈ (List.range 32).map (si + ·), p < st := by
      simp only [mem_map, mem_range]
      rintro p ⟨b, hs, rfl⟩
      omega
    rw [vectors, inVector_eq]
    split
    · rename_i p hf
      obtain ⟨hn, hm, hl⟩ := find?_range_eq_some.mp hf
      have hs := mem_range.mp hm
      refine ⟨hlo, .here (by omega) ⟨Nat.le_add_right .., by simpa using hn, fun k low hh => ?_⟩⟩
      have ho := hl (k - si) (by omega)
      simpa [Nat.add_sub_cancel' low] using ho
    · rename_i hmi
      refine ⟨forall_mem_append.mpr ⟨hlo, hr⟩, hfi.later (Nat.le_add_right ..) fun k low hh => ?_⟩
      have ho := find?_range_eq_none.mp hmi (k - si) (by omega)
      simpa [Nat.add_sub_cancel' low] using ho

theorem newlineFrom_finds (l i : Nat) (end_ : i + l = st) :
    Finds target i st (newlineFrom target l i).2 (.ok st) ∧
      ((∀ p ∈ (newlineFrom target l i).1, p < st) ↔ ¬NoneIn target i st) := by
  induction l generalizing i with
  | zero =>
    subst end_
    exact ⟨⟨fun k hs hf => absurd hf.1 (by omega), fun _ => rfl⟩,
      by simp [newlineFrom, NoneIn]; intro k low hhi; omega⟩
  | succ l ih =>
    obtain ⟨hfi, hr⟩ := ih (i + 1) (by omega)
    rw [newlineFrom]
    split
    · rename_i hn
      refine ⟨.here (by omega) ⟨le_rfl, hn, fun k low hhi => absurd low (by omega)⟩, ?_⟩
      exact iff_of_true (by simp; omega) fun hno => hno i le_rfl (by omega) hn
    · rename_i ho
      refine ⟨hfi.later (Nat.le_succ _) fun k low hhi => (by omega : i = k) ▸ ho, ?_⟩
      have hh : NoneIn target i st ↔ NoneIn target (i + 1) st := by
        refine ⟨fun hno k low => hno k (by omega), fun hno k low hhi => ?_⟩
        obtain rfl | hl := Nat.eq_or_lt_of_le low
        exacts [ho, hno k hl hhi]
      rw [hh, ← hr]
      exact forall_mem_cons.trans (and_iff_right (by omega))

/-- **The two searches agree** exactly if there is a newline to be found. -/
theorem newlines_agree_iff (target : Nat → UInt8) (targetLength : Nat) :
    ((∀ place ∈ (newlineAvx2 target targetLength).1, place < targetLength) ∧
      (∀ place ∈ (newlineScalar target targetLength).1, place < targetLength) ∧
      (newlineAvx2 target targetLength).2 = (newlineScalar target targetLength).2 ∧
      ∀ i < targetLength, target i = nl → (∀ k < i, target k ≠ nl) →
        (newlineAvx2 target targetLength).2 = .ok i) ↔
    ∃ i < targetLength, target i = nl := by
  obtain ⟨hlo, hfi⟩ := @vectors_finds target targetLength (targetLength % 32) (targetLength / 32) 0
    (by omega)
  obtain ⟨hse, hr⟩ := @newlineFrom_finds target targetLength targetLength 0 (by omega)
  have hso : ¬NoneIn target 0 targetLength ↔ ∃ i < targetLength, target i = nl := by
    simp [NoneIn]
  rw [hso] at hr
  constructor
  · exact fun ha => hr.mp ha.2.1
  · intro hn
    have hfr (i : Nat) (hn : target i = nl) (hl : ∀ k < i, target k ≠ nl) : FirstFrom target 0 i :=
      ⟨Nat.zero_le _, hn, fun k _ => hl k⟩
    obtain ⟨hsh, hh⟩ := Nat.find_spec hn
    have hf := hfr _ hh fun k he hs => Nat.find_min hn he ⟨he.trans hsh, hs⟩
    exact ⟨hlo, hr.mpr hn, (hfi.first _ hsh hf).trans (hse.first _ hsh hf).symm,
      fun i hsh hn hl => hfi.first i hsh (hfr i hn hl)⟩

/-- Without a newline, one version throws, and the other reads past the end and returns. -/
theorem newlines_differ : newlineAvx2 (fun _ => 0) 2 = ([0, 1], .error "No newline found") ∧
      newlineScalar (fun _ => 0) 2 = ([0, 1, 2], .ok 2) :=
  ⟨rfl, rfl⟩

end

/-! ### Integers -/

section

variable (buf : Nat → UInt8)

/-- `buf[i] - '0'`, a signed character. -/
def digit (i : Nat) : BitVec 32 := (buf i).toBitVec.signExtend 32 - 48

def atoi (length : Nat) : BitVec 32 :=
    ((List.range length).map fun i => digit buf i * 10 ^ (length - 1 - i)).sum

def atoi1 : BitVec 32 := atoi buf 1
def atoi2 : BitVec 32 := atoi buf 2
def atoi3 : BitVec 32 := atoi buf 3
def atoi4 : BitVec 32 := atoi buf 4
def atoi5 : BitVec 32 := atoi buf 5
def atoi6 : BitVec 32 := atoi buf 6
def atoi7 : BitVec 32 := atoi buf 7
def atoi8 : BitVec 32 := atoi buf 8
def atoi9 : BitVec 32 := atoi buf 9
def atoi10 : BitVec 32 := atoi buf 10

def atois (len : BitVec 32) : Except String (BitVec 32) :=
  match len.toNat with
  | 1 => .ok (atoi1 buf)
  | 2 => .ok (atoi2 buf)
  | 3 => .ok (atoi3 buf)
  | 4 => .ok (atoi4 buf)
  | 5 => .ok (atoi5 buf)
  | 6 => .ok (atoi6 buf)
  | 7 => .ok (atoi7 buf)
  | 8 => .ok (atoi8 buf)
  | 9 => .ok (atoi9 buf)
  | 10 => .ok (atoi10 buf)
  | _ => .error "[ATOIS: ] Invalid Size "

def getFieldEnd : Nat → Nat → Nat
  | 0, pos => pos
  | left + 1, pos => if buf pos = ';'.toUInt8 ∨ buf pos = '\n'.toUInt8 then pos else
      getFieldEnd left (pos + 1)

/-- `readAsIntLLVM` at a position: the number, and the next position. -/
def readAsInt (fsize start : Nat) : Except String (BitVec 32) × Nat :=
  let index := getFieldEnd buf (fsize - start) start
  let len_32 := BitVec.ofNat 32 (index - start)
  (atois (fun i => buf (start + i)) len_32, index + 1)

end

/-- A number in decimal digits, the first one first. -/
def horner (digits : List Int) : Int := digits.foldl (fun value digit => 10 * value + digit) 0

/-- A decimal representation of a 32-bit number. -/
structure Decimal where
  minus : Bool
  digits : List (Fin 10)
  some : digits ≠ []

namespace Decimal

variable (decimal : Decimal)

def text : List UInt8 :=
    (if decimal.minus then ['-'.toUInt8] else []) ++ decimal.digits.map fun d => .ofNat (48 + d)

def value : Int :=
  (if decimal.minus then -1 else 1) * horner (decimal.digits.map fun d => (d.val : Int))

/-- The representation is a field of the file. -/
structure Delimited (buf : Nat → UInt8) (fsize start : Nat) : Prop where
  inside : start + decimal.text.length ≤ fsize
  bytes : ∀ i (short : i < decimal.text.length), buf (start + i) = decimal.text[i]
  ends : start + decimal.text.length < fsize →
    buf (start + decimal.text.length) = ';'.toUInt8 ∨
      buf (start + decimal.text.length) = '\n'.toUInt8

def marks : List Int := (if decimal.minus then [-3] else []) ++ decimal.digits.map fun d =>
    (d.val : Int)

/-- When the number is read, or refused. Only the last 32 bits of the length count. -/
def Read : Prop :=
  let length := decimal.text.length
  length % 2 ^ 32 = 0 ∨ 10 < length % 2 ^ 32 ∨ (length ≤ 10 ∧ decimal.minus = false) ∨
    (2 ^ 32 ≤ length ∧ decimal.value = if decimal.minus then -3 * 10 ^ (length % 2 ^ 32 - 1) else 0)

end Decimal

theorem horner_append (f s : List Int) : horner (f ++ s) = horner f * 10 ^ s.length + horner s := by
  induction s using List.reverseRecOn with
  | nil => simp [horner]
  | append_singleton tl d ih =>
    have hl (ds : List Int) : horner (ds ++ [d]) = 10 * horner ds + d := by
      simp [horner]
    rw [← append_assoc, hl, hl, ih, length_append, length_singleton, pow_succ]
    ring

theorem horner_bounds (ds : List (Fin 10)) : 0 ≤ horner (ds.map fun d => (d.val : Int)) ∧
        horner (ds.map fun d => (d.val : Int)) < 10 ^ ds.length := by
  induction ds using List.reverseRecOn with
  | nil => simp [horner]
  | append_singleton tl di ih =>
    rw [map_append, horner_append, length_append, length_singleton, pow_succ]
    simp only [map_cons, map_nil, length_singleton, pow_one, horner, foldl_cons, foldl_nil] at ih ⊢
    omega

section

variable {buf : Nat → UInt8}

theorem atoi_succ (l : Nat) : atoi buf (l + 1) = atoi buf l * 10 + digit buf l := by
  have ht : (List.range l).map (fun i => digit buf i * 10 ^ (l - i)) =
      (List.range l).map fun i => digit buf i * 10 ^ (l - 1 - i) * 10 := by
    refine map_congr_left fun i hm => ?_
    have low := mem_range.mp hm
    rw [show l - i = l - 1 - i + 1 by omega, pow_succ, mul_assoc]
  rw [atoi, range_succ, map_append, sum_append, Nat.add_sub_cancel, ht, sum_map_mul_right]
  simp [atoi]

theorem atoi_eq {ms : List Int} (hs : ∀ i (hsh : i < ms.length), digit buf i = .ofInt 32 ms[i])
    {l : Nat} (hl : l ≤ ms.length) : atoi buf l = .ofInt 32 (horner (ms.take l)) := by
  induction l with
  | zero => rfl
  | succ l ih =>
    rw [atoi_succ, ih (by omega), hs l (by omega), take_succ_eq_append_getElem (by omega),
      horner_append]
    simp [horner, BitVec.ofInt_add, BitVec.ofInt_mul]

theorem atois_eq (len : BitVec 32) : atois buf len = if 1 ≤ len.toNat ∧ len.toNat ≤ 10 then
    .ok (atoi buf len.toNat)
      else .error "[ATOIS: ] Invalid Size " := by
  rw [atois]
  split
  case h_11 =>
    rw [if_neg]
    rintro ⟨low, hh⟩
    generalize len.toNat = l at *
    interval_cases l <;> simp_all
  all_goals
    rename_i is
    rw [is]
    rfl

theorem getFieldEnd_eq {l lf pos : Nat} (hi : l ≤ lf)
    (hw : ∀ i < l, ¬(buf (pos + i) = ';'.toUInt8 ∨ buf (pos + i) = '\n'.toUInt8))
    (he : l < lf → buf (pos + l) = ';'.toUInt8 ∨ buf (pos + l) = '\n'.toUInt8) :
    getFieldEnd buf lf pos = pos + l := by
  induction l generalizing lf pos with
  | zero =>
    cases lf with
    | zero => rfl
    | succ lf => exact if_pos (he (by omega))
  | succ l ih =>
    obtain ⟨lf, rfl⟩ := Nat.exists_eq_succ_of_ne_zero (by omega : lf ≠ 0)
    rw [getFieldEnd, if_neg (by simpa using hw 0 (by omega)),
      ih (by omega) (fun i low => ?_) (fun hm => ?_)]
    · omega
    · have ho := hw (i + 1) (by omega)
      rwa [show pos + (i + 1) = pos + 1 + i by omega] at ho
    · have hd := he (by omega)
      rwa [show pos + (l + 1) = pos + 1 + l by omega] at hd

end

namespace Decimal

variable {decimal de : Decimal} {buf : Nat → UInt8} {fsize start s : Nat}

theorem length_marks (de : Decimal) : de.marks.length = de.text.length := by
  unfold marks text
  cases de.minus <;> simp

theorem character (de : Decimal) {i : Nat} (hsh : i < de.marks.length) (hs : i < de.text.length) :
    ¬(de.text[i] = ';'.toUInt8 ∨ de.text[i] = '\n'.toUInt8) ∧
      de.text[i].toBitVec.signExtend 32 - 48 = BitVec.ofInt 32 de.marks[i] := by
  have hf : ∀ d : Fin 10,
    ¬(UInt8.ofNat (48 + d) = ';'.toUInt8 ∨ UInt8.ofNat (48 + d) = '\n'.toUInt8) ∧
      (UInt8.ofNat (48 + d)).toBitVec.signExtend 32 - 48 = BitVec.ofInt 32 (d.val : Int) := by
        decide
  obtain ⟨ms, ds, hso⟩ := de
  cases ms with
  | false => simpa only [marks, text, Bool.false_eq_true, if_false, nil_append, getElem_map]
      using hf _
  | true =>
    cases i with
    | zero =>
      have hsi : ¬('-'.toUInt8 = ';'.toUInt8 ∨ '-'.toUInt8 = '\n'.toUInt8) ∧
          '-'.toUInt8.toBitVec.signExtend 32 - 48 = BitVec.ofInt 32 (-3) := by decide
      simpa only [marks, text, if_true, singleton_append, getElem_cons_zero] using hsi
    | succ i => simpa only [marks, text, if_true, singleton_append, getElem_cons_succ,
        getElem_map] using hf _

/-- **What is read** of a number: as many characters as the last bits of the length say. -/
theorem readAsInt_eq (hd : de.Delimited buf fsize s) : (readAsInt buf fsize s).1 =
      if 1 ≤ de.text.length % 2 ^ 32 ∧ de.text.length % 2 ^ 32 ≤ 10 then
        .ok (.ofInt 32 (horner (de.marks.take (de.text.length % 2 ^ 32))))
      else .error "[ATOIS: ] Invalid Size " := by
  obtain ⟨hi, hb, he⟩ := hd
  have hs := de.length_marks
  have hf : getFieldEnd buf (fsize - s) s = s + de.text.length :=
    getFieldEnd_eq (by omega) (fun i low => hb i low ▸ (de.character (hs ▸ low) low).1)
      fun hm => he (by omega)
  rw [readAsInt]
  dsimp only
  rw [hf, Nat.add_sub_cancel_left, atois_eq, BitVec.toNat_ofNat,
    @atoi_eq _ de.marks (fun i hsh => ?_) _ (hs ▸ Nat.mod_le ..)]
  rw [digit, hb i (hs ▸ hsh)]
  exact (de.character hsh (hs ▸ hsh)).2

/-- **The start of a number** with more digits than its value needs is zero. -/
theorem horner_take_eq_zero {ds : List (Fin 10)} {l : Nat} (hlo : l + 10 ≤ ds.length)
    (hsm : horner (ds.map fun d => (d.val : Int)) < 10 ^ 10) :
    horner ((ds.take l).map fun d => (d.val : Int)) = 0 := by
  have hsp := horner_append ((ds.take l).map fun d => (d.val : Int))
    ((ds.drop l).map fun d => (d.val : Int))
  rw [← map_append, take_append_drop, length_map, length_drop] at hsp
  have hf := (horner_bounds (ds.take l)).1
  have hs := (horner_bounds (ds.drop l)).1
  have hp : (10 : Int) ^ 10 ≤ 10 ^ (ds.length - l) := pow_le_pow_right₀ (by decide) (by omega)
  by_contra ho
  have hl := mul_le_mul (by omega : 1 ≤ horner ((ds.take l).map fun d => (d.val : Int))) hp
    (by decide) hf
  omega

theorem toInt_ofInt_iff {x v : Int} (low : -2 ^ 31 ≤ v) (hh : v < 2 ^ 31) (hn : -2 ^ 32 < x - v)
    (far : x - v < 2 ^ 32) : (BitVec.ofInt 32 x).toInt = v ↔ x = v := by
  rw [BitVec.toInt_ofInt]
  constructor
  · intro hs
    have hr := Int.bmod_emod (x := x) (m := 2 ^ 32)
    rw [hs] at hr
    omega
  · rintro rfl
    exact Int.bmod_eq_of_le (by omega) (by omega)

/-- **Integers** are read as themselves or refused exactly if they have no sign and ten characters
at most, or too many of either, or what the last bits of the length leave of them happens to be the
same number. -/
theorem readAsInt_faithful_iff (decimal : Decimal) (low : -2 ^ 31 ≤ decimal.value)
    (high : decimal.value < 2 ^ 31)
    (delimited : decimal.Delimited buf fsize start) :
    (∀ result, (readAsInt buf fsize start).1 = .ok result → result.toInt = decimal.value) ↔
        decimal.Read := by
  rw [readAsInt_eq delimited, Read]
  split
  swap
  · exact iff_of_true (fun _ hi => nomatch hi) (by omega)
  rename_i hl
  simp only [Except.ok.injEq, forall_eq']
  obtain ⟨ms, ds, hso⟩ := decimal
  have hw := horner_bounds ds
  cases ms with
  | false =>
    have hch : (Decimal.mk false ds hso).text.length = ds.length := by simp [text]
    have value : (Decimal.mk false ds hso).value = horner (ds.map fun d => (d.val : Int)) := by
      simp [Decimal.value]
    have hm : (Decimal.mk false ds hso).marks = ds.map fun d => (d.val : Int) := by
      simp [Decimal.marks]
    rw [hch] at hl ⊢
    rw [value] at low high ⊢
    rw [hm, ← map_take]
    by_cases hs : ds.length < 2 ^ 32
    · rw [Nat.mod_eq_of_lt hs] at hl ⊢
      rw [take_length, toInt_ofInt_iff low high (by omega) (by omega)]
      exact iff_of_true rfl (.inr (.inr (.inl ⟨hl.2, rfl⟩)))
    · rw [horner_take_eq_zero (by omega) (by omega), toInt_ofInt_iff low high (by omega) (by omega),
        eq_comm]
      simp only [Bool.false_eq_true, if_false]
      omega
  | true =>
    have hch : (Decimal.mk true ds hso).text.length = ds.length + 1 := by simp [text]
    have value : (Decimal.mk true ds hso).value = -horner (ds.map fun d => (d.val : Int)) := by
      simp [Decimal.value]
    have hm : (Decimal.mk true ds hso).marks = -3 :: ds.map fun d => (d.val : Int) := by
      simp [Decimal.marks]
    rw [hch] at hl ⊢
    rw [value] at low high ⊢
    obtain ⟨tl, hc⟩ := Nat.exists_eq_add_of_le' hl.1
    have few : tl ≤ ds.length := by omega
    have hpo : (10 : Int) ^ tl ≤ 10 ^ 9 := pow_le_pow_right₀ (by decide) (by omega)
    have hp : (0 : Int) < 10 ^ tl := by positivity
    have start : horner ((-3 :: ds.map fun d => (d.val : Int)).take (tl + 1)) =
        -3 * 10 ^ tl + horner ((ds.take tl).map fun d => (d.val : Int)) := by
      rw [take_succ_cons, ← map_take, ← singleton_append, horner_append, length_map,
        length_take_of_le few]
      simp [horner]
    rw [hm, hc, start]
    by_cases hs : ds.length + 1 < 2 ^ 32
    · have all : tl = ds.length := by omega
      rw [all] at hpo hp ⊢
      rw [take_length, toInt_ofInt_iff low high (by omega) (by omega)]
      refine iff_of_false (by omega) ?_
      simp only [Bool.true_eq_false, and_false, false_or]
      omega
    · rw [horner_take_eq_zero (by omega) (by omega), toInt_ofInt_iff low high (by omega) (by omega),
        eq_comm]
      simp only [if_true, Bool.true_eq_false, and_false, false_or, Nat.add_sub_cancel, add_zero]
      omega

theorem forty_two_read : (readAsInt (fun i => [52, 50, 59].getD i 0) 3 0).1 = .ok 42 ∧
      ∀ result, (readAsInt (fun i => [52, 50, 59].getD i 0) 3 0).1 = .ok result →
          result.toInt = 42 :=
  ⟨rfl, (readAsInt_faithful_iff ⟨false, [4, 2], by decide⟩ (by decide) (by decide)
    ⟨by decide, by decide, by decide⟩).mpr
    (.inr (.inr (.inl ⟨by decide, rfl⟩)))⟩

/-- The field `-5` is read as -25. -/
theorem minus_five_read : Delimited ⟨true, [5], by decide⟩ (fun i => [45, 53, 59].getD i 0) 3 0 ∧
      readAsInt (fun i => [45, 53, 59].getD i 0) 3 0 = (.ok (-25), 3) :=
  ⟨⟨by decide, by decide, by decide⟩, rfl⟩

end Decimal

end Proteus.Olap.Parsing
