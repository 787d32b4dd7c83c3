/-
**Dates and times** (`olap/lib/expressions/expressions-generator.cpp`, `visit(ExtractExpression)`).

The instructions that are generated for `EXTRACT`, on 64-bit words. The day number of an instant is
taken with an unsigned division and its time of day with a signed one, so they only agree from 1970
on. The date of a day number is found through the cycles of 400, 100, 4 and 1 years that begin in
March.

* `recomposes_iff` — the day number and the time of day make up the instant;
* `civil_inverts` — the date of a day number.
-/

import Proteus.Library.Calendar
import Proteus.Olap.Expressions

namespace Proteus.Olap.Extract

open Library

/-! ### The instructions -/

def floorDiv (x y : BitVec 64) : BitVec 64 :=
  let r := x.sdiv y
  if (x ^^^ y).slt 0 && r * y != x then r - 1 else r

def floorMod (x y : BitVec 64) : BitVec 64 := x - floorDiv x y * y

/-- `MS_PER_S` -/
def msPerS : Nat := 1000

def msPerM : Nat := 60 * msPerS

def msPerH : Nat := 60 * msPerM

def msPerDay : Nat := 24 * msPerH

/-- `EPOCH_JULIAN` -/
def epochJulian : Nat := 2440588

def julian (v : BitVec 64) : BitVec 64 := v / BitVec.ofNat 64 msPerDay + BitVec.ofNat 64 epochJulian

def vtime (v : BitVec 64) : BitVec 32 := (floorMod v (BitVec.ofNat 64 msPerDay)).setWidth 32

/-- `year`, `month` and `day` -/
structure Civil where
  year : BitVec 64
  month : BitVec 64
  day : BitVec 64

def civil (julian : BitVec 64) : Civil :=
  let j := julian + 32044
  let g := j.sdiv 146097
  let dg := j.srem 146097
  let c := ((dg.sdiv 36524 + 1) * 3).sdiv 4
  let dc := dg - c * 36524
  let b := dc.sdiv 1461
  let db := dc.srem 1461
  let a := ((db.sdiv 365 + 1) * 3).sdiv 4
  let da := db - a * 365
  -- full years since March 4801 BC, and full months since the last March
  let y := g * 400 + c * 100 + (b * 4 + a)
  let m := (da * 5 + 308).sdiv 153 - 2
  let d := da - ((m + 4) * 153).sdiv 5 + 122
  ⟨y - 4800 + (m + 2).sdiv 12, (m + 2).srem 12 + 1, d + 1⟩

def unknownUnit : String := "[ExpressionGeneratorVisitor]: Unknown extract unit"

def getYearDiv : ExtractUnit → Except String (BitVec 64)
  | .year => .ok 1
  | .decade => .ok 10
  | .century => .ok 100
  | .millennium => .ok 1000
  | _ => .error unknownUnit

def getYearAbsOffset : ExtractUnit → Except String (BitVec 64)
  | .year | .decade => .ok 0
  | .century => .ok 99
  | .millennium => .ok 999
  | _ => .error unknownUnit

/-- The value of a unit at an instant. -/
def visit (v : BitVec 64) : ExtractUnit → Except String (BitVec 32)
  | .millisecond => .ok (vtime v % BitVec.ofNat 32 msPerS)
  | .second => .ok (vtime v / BitVec.ofNat 32 msPerS % 60)
  | .minute => .ok (vtime v / BitVec.ofNat 32 msPerM % 60)
  | .hour => .ok (vtime v / BitVec.ofNat 32 msPerH)
  | .dayOfWeek => .ok ((floorMod (julian v + 1) 7 + 1).setWidth 32)
  | .isoDayOfWeek => .ok ((floorMod (julian v) 7 + 1).setWidth 32)
  | .dayOfMonth => .ok ((civil (julian v)).day.setWidth 32)
  | .dayOfYear =>
    let y := (civil (julian v)).year + 4799
    .ok ((365 * y + y.sdiv 4 - y.sdiv 100 + (y.sdiv 400 - 31738)).setWidth 32)
  | .week | .isoYear => .error unknownUnit
  | .month => .ok ((civil (julian v)).month.setWidth 32)
  | .quarter => .ok (((civil (julian v)).month + 2) / 3 |>.setWidth 32)
  | unit => do
    let aoff ← getYearAbsOffset unit
    let div ← getYearDiv unit
    let year := (civil (julian v)).year
    return ((year + if BitVec.slt 0 year then aoff else -aoff).sdiv div).setWidth 32

/-! ### Words as numbers -/

open BitVec Int

section

variable {x y : BitVec 64} {f s : Int} (left : x.toInt = f) (right : y.toInt = s)

include left right

theorem toInt_add_of (hr : -2 ^ 63 ≤ f + s ∧ f + s < 2 ^ 63) : (x + y).toInt = f + s := by
  rw [toInt_add, left, right]
  exact bmod_eq_of_le (by omega) (by omega)

theorem toInt_sub_of (hr : -2 ^ 63 ≤ f - s ∧ f - s < 2 ^ 63) : (x - y).toInt = f - s := by
  rw [toInt_sub, left, right]
  exact bmod_eq_of_le (by omega) (by omega)

theorem toInt_mul_of (hr : -2 ^ 63 ≤ f * s ∧ f * s < 2 ^ 63) : (x * y).toInt = f * s := by
  rw [toInt_mul, left, right]
  exact bmod_eq_of_le (by omega) (by omega)

theorem toInt_sdiv_of (hn : 0 ≤ f) (pos : 0 < s) : (x.sdiv y).toInt = f / s := by
  rw [toInt_sdiv_of_ne_or_ne, left, right, tdiv_eq_ediv_of_nonneg hn]
  refine .inr ?_
  rintro rfl
  rw [← right] at pos
  cases pos

theorem toInt_srem_of (hn : 0 ≤ f) : (x.srem y).toInt = f % s := by
  rw [toInt_srem, left, right, tmod_eq_emod_of_nonneg hn]

end

/-! ### The time of day -/

section

variable (v : BitVec 64)

theorem toInt_floorDiv : (floorDiv v (BitVec.ofNat 64 msPerDay)).toInt = v.toInt / msPerDay := by
  have day : (BitVec.ofNat 64 msPerDay).toInt = 86400000 := rfl
  have hd : (msPerDay : Int) = 86400000 := rfl
  have low := BitVec.le_toInt v
  have hh : v.toInt < 2 ^ 63 := BitVec.toInt_lt
  have hq : (v.sdiv (BitVec.ofNat 64 msPerDay)).toInt = v.toInt.tdiv 86400000 := by
    rw [BitVec.toInt_sdiv_of_ne_or_ne _ _ (.inr (by decide)), day]
  have hs : (v ^^^ BitVec.ofNat 64 msPerDay).slt 0 = decide (v.toInt < 0) := by
    rw [BitVec.ofNat_eq_ofNat, BitVec.slt_zero_eq_msb, BitVec.msb_xor, BitVec.msb_eq_toInt]
    exact Bool.xor_false _
  rw [Int.tdiv_eq_ediv] at hq
  by_cases hw : 0 ≤ v.toInt ∨ (86400000 : Int) ∣ v.toInt
  · rw [if_pos hw, add_zero] at hq
    have hp : (v.sdiv (BitVec.ofNat 64 msPerDay) * BitVec.ofNat 64 msPerDay).toInt =
        (v.sdiv (BitVec.ofNat 64 msPerDay)).toInt * 86400000 := by
      rw [toInt_mul_of hq day ⟨by omega, by omega⟩, hq]
    rw [floorDiv, hs, if_neg, hq, hd]
    rw [Bool.and_eq_true, decide_eq_true_eq, bne_iff_ne]
    rintro ⟨hn, hi⟩
    refine hi (BitVec.toInt_inj.mp ?_)
    rw [hp, hq]
    omega
  · rw [if_neg hw, show Int.sign 86400000 = 1 from rfl] at hq
    have hp : (v.sdiv (BitVec.ofNat 64 msPerDay) * BitVec.ofNat 64 msPerDay).toInt =
        (v.sdiv (BitVec.ofNat 64 msPerDay)).toInt * 86400000 := by
      rw [toInt_mul_of hq day ⟨by omega, by omega⟩, hq]
    have one : (1 : BitVec 64).toInt = 1 := rfl
    rw [floorDiv, hs, if_pos, toInt_sub_of hq one ⟨by omega, by omega⟩, add_sub_cancel_right, hd]
    · rw [Bool.and_eq_true, decide_eq_true_eq, bne_iff_ne]
      refine ⟨by omega, fun he => ?_⟩
      rw [he, hq] at hp
      omega

theorem toInt_floorMod : (floorMod v (BitVec.ofNat 64 msPerDay)).toInt = v.toInt % msPerDay := by
  have hq := toInt_floorDiv v
  have day : (BitVec.ofNat 64 msPerDay).toInt = 86400000 := rfl
  have hd : (msPerDay : Int) = 86400000 := rfl
  rw [hd] at hq ⊢
  -- the product may wrap at the first days, and the difference wraps back
  rw [floorMod, BitVec.toInt_sub, BitVec.toInt_mul, sub_bmod_bmod, hq, day,
    bmod_eq_of_le (by omega) (by omega)]
  omega

theorem toNat_vtime : ((vtime v).toNat : Int) = v.toInt % 86400000 := by
  have hr := toInt_floorMod v
  rw [show (msPerDay : Int) = 86400000 from rfl, BitVec.toInt_eq_toNat_cond] at hr
  rw [vtime, BitVec.toNat_setWidth]
  split at hr <;> omega

theorem toInt_julian : (julian v).toInt = v.toNat / 86400000 + 2440588 := by
  have day : (BitVec.ofNat 64 msPerDay).toNat = 86400000 := rfl
  have he : (BitVec.ofNat 64 epochJulian).toInt = 2440588 := rfl
  have hq : (v / BitVec.ofNat 64 msPerDay).toInt = v.toNat / 86400000 := by
    rw [BitVec.toInt_eq_toNat_cond, BitVec.toNat_udiv, day, if_pos (by omega)]
    push_cast
    ring
  exact toInt_add_of hq he ⟨by omega, by omega⟩

theorem composed : ((julian v).toInt - epochJulian) * msPerDay + (vtime v).toNat =
    v.toNat / 86400000 * 86400000 + (vtime v).toNat := by
  rw [toInt_julian, show (epochJulian : Int) = 2440588 from rfl, add_sub_cancel_right]
  rfl

/-- The day number and the time of day make up the instant, and the time units make up the time of
day. -/
structure Recomposes : Prop where
  instant : ((julian v).toInt - epochJulian) * msPerDay + (vtime v).toNat = v.toInt
  time_lt : (vtime v).toNat < msPerDay
  units : ∃ hour minute second millisecond, visit v .hour = .ok hour ∧
    visit v .minute = .ok minute ∧
    visit v .second = .ok second ∧ visit v .millisecond = .ok millisecond ∧
    ((hour.toNat * 60 + minute.toNat) * 60 + second.toNat) * 1000 + millisecond.toNat =
    (vtime v).toNat

/-- **The parts of an instant.** They make it up exactly from the beginning of 1970 on. -/
theorem recomposes_iff : Recomposes v ↔ 0 ≤ v.toInt := by
  have ht := toNat_vtime v
  have hw := BitVec.toInt_eq_toNat_cond v
  constructor
  · rintro ⟨hi, -, -⟩
    rw [composed] at hi
    split at hw <;> omega
  · intro hn
    refine ⟨?_, ?_, _, _, _, _, rfl, rfl, rfl, rfl, ?_⟩
    · rw [composed]
      split at hw <;> omega
    · rw [show msPerDay = 86400000 from rfl]
      omega
    · have hs : (BitVec.ofNat 32 msPerS).toNat = 1000 := rfl
      have hm : (BitVec.ofNat 32 msPerM).toNat = 60000 := rfl
      have hh : (BitVec.ofNat 32 msPerH).toNat = 3600000 := rfl
      have hsi : (60 : BitVec 32).toNat = 60 := rfl
      rw [BitVec.toNat_umod, BitVec.toNat_umod, BitVec.toNat_umod, BitVec.toNat_udiv,
        BitVec.toNat_udiv,
        BitVec.toNat_udiv, hs, hm, hh, hsi]
      clear hs hm hh hsi
      omega

end

/-- The last millisecond of 1969. -/
theorem eve_not_recomposed : (julian (-1)).toInt = 213506422922 ∧ (vtime (-1)).toNat = 86399999 ∧
    ¬ Recomposes (-1) := by
  refine ⟨?_, ?_, fun hr => ?_⟩
  · rw [toInt_julian]
    decide
  · have ht := toNat_vtime (-1)
    rw [show (-1 : BitVec 64).toInt = -1 from rfl] at ht
    omega
  · have hi := hr.instant
    rw [composed] at hi
    have hw : (-1 : BitVec 64).toInt = -1 := rfl
    omega

/-! ### The date of a day -/

/-- The parts as a date. -/
def Civil.date (parts : Civil) : Date := ⟨parts.year.toInt, parts.month.toNat, parts.day.toNat⟩

section

variable {dg c dc b db a da : Int}

theorem century_bounds (low : 0 ≤ dg) (hh : dg < 146097) (hc : c = (dg / 36524 + 1) * 3 / 4)
    (hr : dc = dg - c * 36524) : 0 ≤ c ∧ c ≤ 3 ∧ 0 ≤ dc ∧ dc ≤ 36524 ∧ (dc = 36524 → c = 3) := by
  omega

theorem year_bounds (low : 0 ≤ db) (hh : db < 1461) (hy : a = (db / 365 + 1) * 3 / 4)
    (hr : da = db - a * 365) : 0 ≤ a ∧ a ≤ 3 ∧ 0 ≤ da ∧ da ≤ 365 ∧ (da = 365 → a = 3) := by
  omega

end

theorem civil_toInt {ju : BitVec 64} (low : 0 ≤ ju.toInt + 32044) (hh : ju.toInt + 32044 < 2 ^ 63) :
    ∃ g c b a da m : Int, ju.toInt + 32044 = 146097 * g + 36524 * c + 1461 * b + 365 * a + da ∧
      (0 ≤ c ∧ c ≤ 3 ∧ 0 ≤ b ∧ b ≤ 24 ∧ 0 ≤ a ∧ a ≤ 3 ∧ 0 ≤ da) ∧
      (da < 365 ∨ da = 365 ∧ a = 3 ∧ (b = 24 → c = 3)) ∧ m = (da * 5 + 308) / 153 - 2 ∧
      (civil ju).year.toInt = 400 * g + 100 * c + 4 * b + a - 4800 + (m + 2) / 12 ∧
      (civil ju).month.toInt = (m + 2) % 12 + 1 ∧
      (civil ju).day.toInt = da - (m + 4) * 153 / 5 + 123 := by
  unfold civil
  extract_lets j g dg c dc b db a da y m d
  have hji : j.toInt = ju.toInt + 32044 := toInt_add_of rfl rfl ⟨by omega, hh⟩
  clear_value j
  have hgi : g.toInt = j.toInt / 146097 := toInt_sdiv_of rfl rfl (by omega) (by decide)
  have hdg : dg.toInt = j.toInt % 146097 := toInt_srem_of rfl rfl (by omega)
  clear_value g dg
  have hci : c.toInt = (dg.toInt / 36524 + 1) * 3 / 4 := toInt_sdiv_of
      (toInt_mul_of (toInt_add_of (toInt_sdiv_of rfl rfl (by omega) (by decide)) rfl (by omega)) rfl
      (by omega)) rfl (by omega) (by decide)
  clear_value c
  have hct : (c * 36524).toInt = c.toInt * 36524 := toInt_mul_of rfl rfl (by omega)
  have hdi : dc.toInt = dg.toInt - c.toInt * 36524 := toInt_sub_of rfl hct (by omega)
  clear_value dc
  have hc := century_bounds (by omega) (by omega) hci hdi
  have hbi : b.toInt = dc.toInt / 1461 := toInt_sdiv_of rfl rfl (by omega) (by decide)
  have hdb : db.toInt = dc.toInt % 1461 := toInt_srem_of rfl rfl (by omega)
  clear_value b db
  have hai : a.toInt = (db.toInt / 365 + 1) * 3 / 4 := toInt_sdiv_of
      (toInt_mul_of (toInt_add_of (toInt_sdiv_of rfl rfl (by omega) (by decide)) rfl (by omega)) rfl
      (by omega)) rfl (by omega) (by decide)
  clear_value a
  have hat : (a * 365).toInt = a.toInt * 365 := toInt_mul_of rfl rfl (by omega)
  have hd : da.toInt = db.toInt - a.toInt * 365 := toInt_sub_of rfl hat (by omega)
  clear_value da
  have hy := year_bounds (by omega) (by omega) hai hd
  have hyI : y.toInt = g.toInt * 400 + c.toInt * 100 + (b.toInt * 4 + a.toInt) :=
    toInt_add_of (toInt_add_of (toInt_mul_of rfl rfl (by omega)) (toInt_mul_of rfl rfl (by omega))
      (by omega))
      (toInt_add_of (toInt_mul_of rfl rfl (by omega)) rfl (by omega)) (by omega)
  clear_value y
  have hmi : m.toInt = (da.toInt * 5 + 308) / 153 - 2 :=
    toInt_sub_of (toInt_sdiv_of (toInt_add_of (toInt_mul_of rfl rfl (by omega)) rfl (by omega)) rfl
      (by omega)
      (by decide)) rfl (by omega)
  clear_value m
  have hdI : d.toInt = da.toInt - (m.toInt + 4) * 153 / 5 + 122 := toInt_add_of (toInt_sub_of rfl
      (toInt_sdiv_of (toInt_mul_of (toInt_add_of rfl rfl (by omega)) rfl (by omega))
      rfl (by omega) (by decide)) (by omega)) rfl (by omega)
  clear_value d
  have two : (m + 2).toInt = m.toInt + 2 := toInt_add_of rfl rfl (by omega)
  have hyi : (y - 4800 + (m + 2).sdiv 12).toInt = y.toInt - 4800 + (m.toInt + 2) / 12 :=
    toInt_add_of (toInt_sub_of rfl rfl (by omega)) (toInt_sdiv_of two rfl (by omega) (by decide))
      (by omega)
  have hda : (d + 1).toInt = d.toInt + 1 := toInt_add_of rfl rfl (by omega)
  refine ⟨g.toInt, c.toInt, b.toInt, a.toInt, da.toInt, m.toInt, by omega, by omega, by omega, hmi,
    ?_, ?_, ?_⟩
  · rw [hyi]
    omega
  · exact toInt_add_of (toInt_srem_of two rfl (by omega)) rfl (by omega)
  · rw [hda]
    omega

theorem yearStart_cycles {g c b a : Int} (hb : 0 ≤ c ∧ c ≤ 3 ∧ 0 ≤ b ∧ b ≤ 24 ∧ 0 ≤ a ∧ a ≤ 3) :
    yearStart (400 * g + 100 * c + 4 * b + a - 4800 + 1) = 146097 * g + 36524 * c + 1461 * b + 365 *
        a - 1753164 := by
  simp only [yearStart]
  omega

theorem leap_cycles {g c b : Int} (hb : 0 ≤ c ∧ c ≤ 3 ∧ 0 ≤ b ∧ b ≤ 24) (hl : b = 24 → c = 3) :
    Leap (400 * g + 100 * c + 4 * b + 3 - 4800 + 1) := by
  refine ⟨by omega, ?_⟩
  by_cases hc : b = 24
  · exact .inr (by omega)
  · exact .inl (by omega)

/-- **A day of the cycles** as a date, in the year they begin in or the next one. -/
theorem cycle_date {y da m : Int} (hr : 0 ≤ da ∧ da ≤ 365) (hl : da = 365 → Leap (y + 1))
    (hm : m = (da * 5 + 308) / 153 - 2) {d : Date} (hye : d.year = y + (m + 2) / 12)
    (hme : (d.month : Int) = (m + 2) % 12 + 1)
    (hde : (d.day : Int) = da - (m + 4) * 153 / 5 + 123) :
    d.Valid ∧ d.julianDay = yearStart (y + 1) + da + 1721120 := by
  obtain ⟨dy, mo, day⟩ := d
  simp only at hye hme hde
  by_cases he : m ≤ 9
  · -- from March to December
    obtain ⟨n, rfl⟩ : ∃ n : Nat, m = n := ⟨m.toNat, by omega⟩
    obtain rfl : dy = y := by omega
    obtain rfl : mo = n + 3 := by omega
    have low : ((153 * n + 2) / 5 : Nat) ≤ da := by omega
    have hh : da < ((153 * (n + 1) + 2) / 5 : Nat) := by omega
    have hp : ((n : Int) + 4) * 153 / 5 = ((153 * n + 2) / 5 : Nat) + 122 := by omega
    have hs : monthStart dy (n + 3) = _ := monthStart_march (by omega)
    have hn : monthStart dy (n + 3 + 1) = _ := monthStart_succ (by omega)
    rw [Nat.add_right_comm, monthStart_march (by omega), hs, add_assoc _ _ (monthLength _ _),
      Nat.add_left_cancel_iff] at hn
    rw [hp] at hde
    clear hp hm hme hye
    refine ⟨⟨Nat.le_add_left .., by simp only; omega, by simp only; omega, by simp only; omega⟩, ?_⟩
    have hst : yearStart (dy + 1) = _ := yearStart_succ
    simp only [Date.julianDay, hs, hst]
    split <;> omega
  · -- January or February
    obtain rfl : dy = y + 1 := by omega
    have hj : monthStart (y + 1) 1 = 0 := rfl
    have hfe : monthStart (y + 1) 2 = 31 := rfl
    rcases (by omega : m = 10 ∨ m = 11) with rfl | rfl
    · obtain rfl : mo = 1 := by omega
      refine ⟨⟨le_rfl, by simp only; omega, by simp only; omega, ?_⟩, ?_⟩
      · show day ≤ 31
        omega
      · simp only [Date.julianDay, hj]
        omega
    · obtain rfl : mo = 2 := by omega
      refine ⟨⟨by simp only; omega, by simp only; omega, by simp only; omega, ?_⟩, ?_⟩
      · show day ≤ if Leap (y + 1) then 29 else 28
        split
        · omega
        · next hc =>
          have : da ≠ 365 := fun hf => hc (hl hf)
          omega
      · simp only [Date.julianDay, hfe]
        omega

theorem civil_valid {j : BitVec 64} (low : 0 ≤ j.toInt + 32044) (hh : j.toInt + 32044 < 2 ^ 63) :
    (civil j).date.Valid ∧ (civil j).date.julianDay = j.toInt := by
  obtain ⟨g, c, b, a, da, m, ht, hb, hl, hmo, hye, hme, hde⟩ := civil_toInt low hh
  generalize civil j = ps at *
  have hs : yearStart (400 * g + 100 * c + 4 * b + a - 4800 + 1) = _ := yearStart_cycles (by omega)
  have hw : ∀ x : BitVec 64, 0 ≤ x.toInt → (x.toNat : Int) = x.toInt := fun x hno => by
    rw [toInt_eq_toNat_cond] at hno ⊢
    split at hno <;> omega
  have hr : 0 ≤ da ∧ da ≤ 365 := by omega
  have hle : da = 365 → Leap (400 * g + 100 * c + 4 * b + a - 4800 + 1) := fun hf => by
    obtain ⟨-, rfl, hc⟩ := hl.resolve_left (by omega)
    exact leap_cycles (by omega) hc
  have hm := hw ps.month (by omega)
  have day := hw ps.day (by omega)
  obtain ⟨hv, hn⟩ : ps.date.Valid ∧ ps.date.julianDay = _ :=
    cycle_date hr hle hmo hye (hm.trans hme) (day.trans hde)
  refine ⟨hv, ?_⟩
  rw [hn, hs]
  omega

/-- **The date of a day.** The parts are a date of the calendar, and the only one whose number is
the day's. -/
theorem civil_inverts (julian : BitVec 64) (low : 0 ≤ julian.toInt + 32044)
    (high : julian.toInt + 32044 < 2 ^ 63) :
    (civil julian).date.Valid ∧ (civil julian).date.julianDay = julian.toInt ∧
      ∀ other : Date, other.Valid → other.julianDay = julian.toInt →
          other = (civil julian).date := by
  obtain ⟨hv, hs⟩ := civil_valid low high
  exact ⟨hv, hs, fun other hvo hf => Date.ext_of_julianDay hvo hv (hf.trans hs.symm)⟩

/-- The first day of 1970. -/
theorem civil_inverts_epoch : (civil 2440588).date = ⟨1970, 1, 1⟩ :=
  ((civil_inverts 2440588 (by decide) (by decide)).2.2 ⟨1970, 1, 1⟩
    ⟨by decide, by decide, by decide, by decide⟩ (by decide)).symm

/-! ### The day of the year -/

/-- The value of `DAYOFYEAR` counts the days of the year up to the date. -/
structure CountsDays (v : BitVec 64) (value : BitVec 32) : Prop where
  counts : (value.toNat : Int) = (civil (julian v)).date.dayOfYear
  pos : 1 ≤ value.toNat
  le : value.toNat ≤ 366
  leap : value.toNat = 366 → Leap (civil (julian v)).date.year

theorem visit_dayOfYear (v : BitVec 64) :
    visit v .dayOfYear = .ok ((365 * ((civil (julian v)).year + 4799) +
    ((civil (julian v)).year + 4799).sdiv 4 - ((civil (julian v)).year + 4799).sdiv 100 +
      (((civil (julian v)).year + 4799).sdiv 400 - 31738)).setWidth 32) := rfl

theorem toNat_dayOfYear {ps : Civil} (low : 0 ≤ ps.year.toInt) (hh : ps.year.toInt < 2 ^ 40) :
    (((365 * (ps.year + 4799) + (ps.year + 4799).sdiv 4 - (ps.year + 4799).sdiv 100 +
      ((ps.year + 4799).sdiv 400 - 31738)).setWidth 32).toNat : Int) =
      Date.julianDay ⟨ps.date.year, 1, 1⟩ % 2 ^ 32 := by
  obtain ⟨ye, _, _⟩ := ps
  simp only [Civil.date] at low hh ⊢
  have y : (ye + 4799).toInt = ye.toInt + 4799 := toInt_add_of rfl rfl (by omega)
  generalize ye + 4799 = s at y ⊢
  have hw : (365 * s + s.sdiv 4 - s.sdiv 100 + (s.sdiv 400 - 31738)).toInt =
      365 * (ye.toInt + 4799) + (ye.toInt + 4799) / 4 - (ye.toInt + 4799) / 100 +
        ((ye.toInt + 4799) / 400 - 31738) :=
    toInt_add_of (toInt_sub_of (toInt_add_of (toInt_mul_of rfl y (by omega))
      (toInt_sdiv_of y rfl (by omega) (by decide)) (by omega))
      (toInt_sdiv_of y rfl (by omega) (by decide))
      (by omega)) (toInt_sub_of (toInt_sdiv_of y rfl (by omega) (by decide)) rfl (by omega))
      (by omega)
  generalize 365 * s + s.sdiv 4 - s.sdiv 100 + (s.sdiv 400 - 31738) = t at hw ⊢
  have hf : Date.julianDay ⟨ye.toInt, 1, 1⟩ = t.toInt := by
    rw [hw, Date.julianDay, show monthStart ye.toInt 1 = 0 from rfl]
    simp only [yearStart]
    omega
  rw [hf, toNat_setWidth, toInt_eq_toNat_cond]
  split <;> omega

theorem emod_eq_iff_dvd {n day : Int} (low : 0 ≤ day) (hh : day < 2 ^ 32) :
    n % 2 ^ 32 = day ↔ 2 ^ 32 ∣ n - day := by
  omega

/-- **The day of the year** comes out exactly where the number of the first day of the year, cut to
32 bits, happens to be it; the number itself is far above 366. -/
theorem counts_days_iff (v : BitVec 64) :
    (∃ value, visit v .dayOfYear = .ok value ∧ CountsDays v value) ↔
      (2 : Int) ^ 32 ∣ Date.julianDay ⟨(civil (julian v)).date.year, 1, 1⟩ -
      (civil (julian v)).date.dayOfYear := by
  have hn := toInt_julian v
  obtain ⟨hv, hs⟩ : (civil (julian v)).date.Valid ∧ _ := civil_valid (by omega) (by omega)
  obtain ⟨pos, le, hl⟩ := hv.dayOfYear_bounds
  obtain ⟨low, hh⟩ : 0 ≤ (civil (julian v)).year.toInt ∧
      (civil (julian v)).year.toInt < 2 ^ 40 := by
    have hj : Date.julianDay ⟨(civil (julian v)).date.year, 1, 1⟩ =
      1721425 + yearStart (civil (julian v)).year.toInt + (0 : Nat) + (1 : Nat) := rfl
    rw [Date.dayOfYear, hs, hn, hj] at pos le
    simp only [yearStart] at pos le
    omega
  have hf := visit_dayOfYear v
  have hfi := toNat_dayOfYear low hh
  generalize setWidth 32 _ = value at hf hfi
  rw [← emod_eq_iff_dvd (le_of_lt pos) (lt_of_le_of_lt le (by decide)), ← hfi]
  constructor
  · rintro ⟨o, hfo, hc⟩
    obtain rfl := Except.ok.inj (hf.symm.trans hfo)
    exact hc.counts
  · intro hc
    rw [← hc] at pos le hl
    exact ⟨value, hf, hc, ofNat_le.mp pos, ofNat_le.mp le, fun hfu => hl (congrArg _ hfu)⟩

/-- The first instant of 1970. -/
theorem epoch_day_wrong : visit 0 .dayOfYear = .ok 2440588 ∧ ¬ CountsDays 0 2440588 :=
  ⟨congrArg Except.ok (by decide +kernel), fun hc => absurd hc.le (by decide)⟩

end Proteus.Olap.Extract
