import Mathlib.Data.Int.ConditionallyCompleteOrder
import Mathlib.Order.ConditionallyCompleteLattice.Basic
import Nzbd.Lib.Calendar
import Nzbd.Lib.Checked
import Nzbd.Lib.Numeral
import Nzbd.Lib.Rolling

/-!
# The volumes of the servers

How much has been loaded from each server, in all, on one day and in one month of the quota,
which begins on the start day.  A window that is older than the clock counts for nothing.

The date is computed from the number of the day with a few divisions: the era of 400 years, the
year in it and the day of that year, which begins in March.  `civil_eq_marchDate` says that it is
the date of the calendar.
-/

namespace Nzbd.Engine.Volumes

open Calendar
open Numeral (Signed)

/-- `civil_from_days` when the days are counted from March of the year 0. -/
def civil (z : Int) : Date :=
  let era := (if 0 ≤ z then z else z - 146096).tdiv 146097
  let doe := z - era * 146097
  let yoe := (doe - doe.tdiv 1460 + doe.tdiv 36524 - doe.tdiv 146096).tdiv 365
  let y := yoe + era * 400
  let doy := doe - (365 * yoe + yoe.tdiv 4 - yoe.tdiv 100)
  let mp := (5 * doy + 2).tdiv 153
  let d := (doy - (153 * mp + 2).tdiv 5 + 1).toNat
  let m := (if mp < 10 then mp + 3 else mp - 9).toNat
  ⟨if m ≤ 2 then y + 1 else y, m, d⟩

/-- `none` where the sum does not fit in 64 bits. -/
def civilFromDays (z : Int) : Option Date := if z + 719468 < 2 ^ 63 then some (civil (z + 719468)) else none

/-- The month of the quota a date is in, when it begins on the day `start`. -/
def period (start : Nat) (date : Date) : Int :=
  let (py, pm) := if start ≤ date.day then (date.year, date.month)
    else if date.month = 1 then (date.year - 1, 12) else (date.year, date.month - 1)
  py * 12 + pm

def startOn (startDay : Nat) : Nat := max 1 (min startDay 28)

def monthKey (unix : Int) (startDay : Nat) : Option Int :=
  (civilFromDays (unix / 86400)).map (period (startOn startDay))

def dayKey (unix : Int) : Int := unix / 86400

structure VolumeWindow where
  totalBytes : Nat := 0
  dayKey : Int := 0
  dayBytes : Nat := 0
  monthKey : Int := 0
  monthBytes : Nat := 0

/-- The windows of the servers. -/
abbrev VolumeDoc := List (Nat × VolumeWindow)

namespace VolumeDoc

def window (doc : VolumeDoc) (server : Nat) : VolumeWindow :=
  ((Table.get Prod.fst doc server).map Prod.snd).getD {}

def dayTotal (doc : VolumeDoc) (now : Int) : Option Nat :=
  Checked.sumFrom 64 0 ((doc.filter fun r => r.2.dayKey = Volumes.dayKey now).map fun r => r.2.dayBytes)

def monthTotal (doc : VolumeDoc) (now : Int) (startDay : Nat) : Option Nat :=
  (Volumes.monthKey now startDay).bind fun key =>
    Checked.sumFrom 64 0 ((doc.filter fun r => r.2.monthKey = key).map fun r => r.2.monthBytes)

end VolumeDoc

namespace VolumeWindow

/-- Another day begins at zero. -/
def rollDay (w : VolumeWindow) (dk : Int) : VolumeWindow :=
  if w.dayKey ≠ dk then { w with dayKey := dk, dayBytes := 0 } else w

def rollMonth (w : VolumeWindow) (mk : Int) : VolumeWindow :=
  if w.monthKey ≠ mk then { w with monthKey := mk, monthBytes := 0 } else w

def addBytes (w : VolumeWindow) (bytes : Nat) : Option VolumeWindow := do
  let totalBytes ← Checked.add 64 w.totalBytes bytes
  let dayBytes ← Checked.add 64 w.dayBytes bytes
  let monthBytes ← Checked.add 64 w.monthBytes bytes
  some { w with totalBytes := totalBytes, dayBytes := dayBytes, monthBytes := monthBytes }

end VolumeWindow

/-- One call of `add`. -/
structure Call where
  server : Nat
  bytes : Nat
  unix : Int

def add (startDay : Nat) (doc : VolumeDoc) (c : Call) : Option VolumeDoc := do
  let mk ← monthKey c.unix startDay
  let w ← (((doc.window c.server).rollDay (dayKey c.unix)).rollMonth mk).addBytes c.bytes
  some (Table.put Prod.fst doc (c.server, w))

/-- What has been added by the calls that satisfy `p`. -/
def bytesOf (p : Call → Bool) (calls : List Call) : Nat := ((calls.filter p).map Call.bytes).sum

/-- **What is claimed** of a sequence of calls when the clock is `now`. -/
structure Totals (startDay : Nat) (calls : List Call) (now : Int) (doc : VolumeDoc) : Prop where
  run : calls.foldlM (add startDay) [] = some doc
  total : ∀ server, (doc.window server).totalBytes = bytesOf (·.server = server) calls
  day : doc.dayTotal now = some (bytesOf (fun c => dayKey c.unix = dayKey now) calls)
  month : doc.monthTotal now startDay =
    some (bytesOf (fun c => monthKey c.unix startDay = monthKey now startDay) calls)

/-- Midnight of the start day of a month. -/
def BeginsPeriod (date : Int → Date) (startDay : Nat) (unix : Int) : Prop :=
  unix % 86400 = 0 ∧ (date (unix / 86400)).day = startOn startDay

/-! ### The date -/

theorem yearOfEra {doe c q s : Int} (hdoe : doe = 36524 * c + 1461 * q + s) (hc : 0 ≤ c ∧ c ≤ 3)
    (hq : 0 ≤ q ∧ q ≤ 24) (hs : 0 ≤ s ∧ s < 1461) (hlt : 1461 * q + s < 36524) :
    ∃ j, (doe - doe / 1460 + doe / 36524 - doe / 146096) / 365 = 100 * c + 4 * q + j ∧
      0 ≤ j ∧ j ≤ 3 ∧ 365 * j ≤ s ∧ s < 365 * j + 365 + j / 3 := by
  have hcentury : doe / 36524 = c := by omega
  have hend : doe / 146096 = 0 := by omega
  have hday : doe / 1460 = 25 * c + q + (24 * c + q + s) / 1460 := by omega
  have hcarry : (24 * c + q + s) / 1460 = 0 ∨ (24 * c + q + s) / 1460 = 1 := by omega
  rw [hcentury, hend]
  refine ⟨min (s / 365) 3, ?_, ?_, ?_, ?_, ?_⟩
  · rcases hcarry with hcarry | hcarry <;> omega
  all_goals omega

theorem startOf_yearOfEra {doe yoe : Int} (h : 0 ≤ doe ∧ doe < 146097)
    (hyoe : (doe - doe / 1460 + doe / 36524 - doe / 146096) / 365 = yoe) :
    startOf yoe ≤ doe ∧ doe < startOf (yoe + 1) := by
  by_cases hend : doe = 146096
  · -- the day that the last century has more
    subst hend hyoe
    exact ⟨by decide, by decide⟩
  obtain ⟨c, q, s, hsum, hc, hq, hs, hlt⟩ : ∃ c q s, doe = 36524 * c + 1461 * q + s ∧ (0 ≤ c ∧ c ≤ 3) ∧
      (0 ≤ q ∧ q ≤ 24) ∧ (0 ≤ s ∧ s < 1461) ∧ 1461 * q + s < 36524 :=
    ⟨doe / 36524, doe % 36524 / 1461, doe % 36524 % 1461, by omega, by omega, by omega, by omega, by omega⟩
  obtain ⟨j, hj, hlow, hhigh, hle, hless⟩ := yearOfEra hsum hc hq hs hlt
  rw [hyoe] at hj
  subst hj
  clear hyoe h hend
  have hstart := @startOf_cycle c q j (by omega) ⟨hlow, hhigh⟩ hc
  have hnext : 36524 * c + 1461 * q + s < startOf (100 * c + 4 * q + j + 1) := by
    rcases (by omega : j < 3 ∨ j = 3 ∧ q < 24 ∨ j = 3 ∧ q = 24 ∧ c < 3 ∨ j = 3 ∧ q = 24 ∧ c = 3) with
      hyear | ⟨rfl, hyear⟩ | ⟨rfl, rfl, hyear⟩ | ⟨rfl, rfl, rfl⟩
    · have heq : 100 * c + 4 * q + j + 1 = 100 * c + 4 * q + (j + 1) := by omega
      rw [heq, startOf_cycle (by omega) (by omega) hc]
      omega
    · have heq : 100 * c + 4 * q + 3 + 1 = 100 * c + 4 * (q + 1) + 0 := by omega
      rw [heq, startOf_cycle (by omega) (by omega) hc]
      omega
    · have heq : 100 * c + 4 * 24 + 3 + 1 = 100 * (c + 1) + 4 * 0 + 0 := by omega
      rw [heq, startOf_cycle (by omega) (by omega) (by omega)]
      omega
    · have hlast : startOf (100 * 3 + 4 * 24 + 3 + 1) = 146097 := rfl
      omega
  omega

theorem era_eq (z : Int) : (if 0 ≤ z then z else z - 146096).tdiv 146097 = z / 146097 :=
  tdiv_eq_floor (n := 146097) (by decide) z

theorem marchDate_toNat {y doy : Int} (h : 0 ≤ doy) : marchDate y doy.toNat =
    ⟨if (if (5 * doy + 2) / 153 < 10 then (5 * doy + 2) / 153 + 3 else (5 * doy + 2) / 153 - 9).toNat ≤ 2
      then y + 1 else y,
    (if (5 * doy + 2) / 153 < 10 then (5 * doy + 2) / 153 + 3 else (5 * doy + 2) / 153 - 9).toNat,
    (doy - (153 * ((5 * doy + 2) / 153) + 2) / 5 + 1).toNat⟩ := by
  have hmp : ((5 * doy + 2) / 153).toNat = marchMonth doy.toNat := by
    unfold marchMonth
    omega
  have hmonth : (if (5 * doy + 2) / 153 < 10 then (5 * doy + 2) / 153 + 3
      else (5 * doy + 2) / 153 - 9).toNat = monthOf doy.toNat := by
    unfold monthOf
    rw [← hmp]
    split <;> split <;> omega
  have hday : (doy - (153 * ((5 * doy + 2) / 153) + 2) / 5 + 1).toNat = dayOf doy.toNat := by
    unfold dayOf
    rw [← hmp]
    omega
  rw [hmonth, hday, marchDate]

/-- **The date that is computed** is the one of a day in a year from March. -/
theorem civil_eq_marchDate (z : Int) : ∃ y, startOf y ≤ z ∧ z < startOf (y + 1) ∧
    civil z = marchDate y (z - startOf y).toNat := by
  have hdoe : 0 ≤ z - z / 146097 * 146097 ∧ z - z / 146097 * 146097 < 146097 := by omega
  have hz : z = z - z / 146097 * 146097 + 146097 * (z / 146097) := by omega
  simp only [civil, era_eq]
  generalize z / 146097 = era at *
  generalize z - era * 146097 = doe at *
  obtain ⟨hlow, hhigh⟩ := startOf_yearOfEra hdoe rfl
  have hpos : 0 ≤ doe - doe / 1460 + doe / 36524 - doe / 146096 := by omega
  rw [Int.tdiv_eq_ediv_of_nonneg hdoe.1, Int.tdiv_eq_ediv_of_nonneg hdoe.1,
    Int.tdiv_eq_ediv_of_nonneg hdoe.1, Int.tdiv_eq_ediv_of_nonneg hpos]
  have hyear : 0 ≤ (doe - doe / 1460 + doe / 36524 - doe / 146096) / 365 ∧
      (doe - doe / 1460 + doe / 36524 - doe / 146096) / 365 < 400 := by omega
  generalize (doe - doe / 1460 + doe / 36524 - doe / 146096) / 365 = yoe at *
  rw [Int.tdiv_eq_ediv_of_nonneg hyear.1, Int.tdiv_eq_ediv_of_nonneg hyear.1]
  have hstart := startOf_add_era yoe era
  have hnext := startOf_add_era (yoe + 1) era
  have hsucc : yoe + 400 * era + 1 = yoe + 1 + 400 * era := by omega
  have hdoy : z - startOf (yoe + 400 * era) = doe - (365 * yoe + yoe / 4 - yoe / 100) := by
    have hyoe : startOf yoe = 365 * yoe + yoe / 4 - yoe / 100 := by
      unfold startOf
      omega
    omega
  have hnonneg : 0 ≤ doe - (365 * yoe + yoe / 4 - yoe / 100) := by omega
  refine ⟨yoe + 400 * era, by omega, ?_, ?_⟩
  · rw [hsucc]
    omega
  · rw [hdoy, marchDate_toNat hnonneg, Int.mul_comm 400 era]
    generalize doe - (365 * yoe + yoe / 4 - yoe / 100) = doy at *
    have hmp : 0 ≤ 5 * doy + 2 := by omega
    rw [Int.tdiv_eq_ediv_of_nonneg hmp, Int.tdiv_eq_ediv_of_nonneg (by omega)]

theorem toNat_lt_yearLength {y z : Int} (h : startOf y ≤ z ∧ z < startOf (y + 1)) :
    (z - startOf y).toNat < yearLength y := by
  have hsucc := startOf_succ y
  unfold yearLength
  split at hsucc <;> split <;> omega

/-- **The days have the dates of the calendar.** -/
theorem isCalendar_civil : IsCalendar fun z => civil (z + 719468) where
  epoch := by decide
  valid z := by
    obtain ⟨y, hlow, hhigh, hy⟩ := civil_eq_marchDate (z + 719468)
    rw [hy]
    exact valid_marchDate (toNat_lt_yearLength ⟨hlow, hhigh⟩)
  next z := by
    obtain ⟨y, hlow, hhigh, hy⟩ := civil_eq_marchDate (z + 719468)
    obtain ⟨y', hlow', hhigh', hy'⟩ := civil_eq_marchDate (z + 1 + 719468)
    have hlength : startOf (y + 1) = startOf y + yearLength y := by
      rw [startOf_succ, yearLength]
      split <;> rfl
    have hafter := startOf_succ (y + 1)
    rw [hy, hy', next_marchDate (toNat_lt_yearLength ⟨hlow, hhigh⟩)]
    split
    · next hlt =>
      have heq : y' = y := place_unique ⟨hlow', hhigh'⟩ ⟨by omega, by omega⟩
      have hdoy : (z + 1 + 719468 - startOf y).toNat = (z + 719468 - startOf y).toNat + 1 := by omega
      rw [heq, hdoy]
    · next hlt =>
      have hstart : z + 1 + 719468 = startOf (y + 1) := by omega
      have heq : y' = y + 1 := place_unique ⟨hlow', hhigh'⟩
        ⟨hstart.ge, by omega⟩
      rw [heq, hstart, Int.sub_self]
      rfl

/-! ### The month -/

theorem period_eq (start : Nat) (d : Date) (hd : 1 ≤ d.month) :
    period start d = d.year * 12 + d.month - if start ≤ d.day then 0 else 1 := by
  unfold period
  by_cases hstart : start ≤ d.day
  · rw [if_pos hstart, if_pos hstart, Int.sub_zero]
  · by_cases hmonth : d.month = 1
    · rw [if_neg hstart, if_neg hstart, if_pos hmonth, hmonth]
      simp only
      omega
    · rw [if_neg hstart, if_neg hstart, if_neg hmonth]
      simp only
      omega

theorem period_next {start : Nat} (hstart : 1 ≤ start ∧ start ≤ 28) {d : Date} (hd : d.Valid) :
    period start d.next = period start d + if d.next.day = start then 1 else 0 := by
  have hlength := one_le_daysInMonth d.year d.month
  obtain ⟨hmonth, hday⟩ := hd
  unfold Date.next
  by_cases hless : d.day < daysInMonth d.year d.month
  · rw [if_pos hless, period_eq start d hmonth.1, period_eq start { d with day := d.day + 1 } hmonth.1]
    simp only
    split <;> split <;> split <;> omega
  · rw [if_neg hless]
    have hafter : start ≤ d.day := by omega
    by_cases htwelve : d.month < 12
    · rw [if_pos htwelve, period_eq start d hmonth.1, period_eq start ⟨d.year, d.month + 1, 1⟩ (by simp),
        if_pos hafter]
      simp only
      split <;> split <;> omega
    · rw [if_neg htwelve, period_eq start d hmonth.1, period_eq start ⟨d.year + 1, 1, 1⟩ (by simp),
        if_pos hafter]
      simp only
      split <;> split <;> omega

def quotaMonth (startDay : Nat) (unix : Int) : Int :=
  period (startOn startDay) (civil (unix / 86400 + 719468))

theorem monthKey_eq {unix : Int} (h : Signed (2 ^ 63) unix) (startDay : Nat) :
    monthKey unix startDay = some (quotaMonth startDay unix) := by
  have hfits : unix / 86400 + 719468 < 2 ^ 63 := by
    unfold Signed at h
    omega
  rw [monthKey, civilFromDays, if_pos hfits]
  rfl

/-- **One second later** it is the same month, or it is midnight of a start day. -/
theorem quotaMonth_succ (startDay : Nat) (unix : Int) :
    quotaMonth startDay (unix + 1) = quotaMonth startDay unix +
    if (unix + 1) % 86400 = 0 ∧ (civil ((unix + 1) / 86400 + 719468)).day = startOn startDay then 1
    else 0 := by
  have hstart : 1 ≤ startOn startDay ∧ startOn startDay ≤ 28 := by
    unfold startOn
    omega
  unfold quotaMonth
  by_cases hmidnight : (unix + 1) % 86400 = 0
  · have hday : (unix + 1) / 86400 + 719468 = unix / 86400 + 1 + 719468 := by omega
    have hnext : civil (unix / 86400 + 1 + 719468) = (civil (unix / 86400 + 719468)).next :=
      isCalendar_civil.next _
    rw [hday, hnext, period_next hstart (isCalendar_civil.valid _)]
    simp only [hmidnight, true_and]
  · have hday : (unix + 1) / 86400 = unix / 86400 := by omega
    rw [if_neg fun h => hmidnight h.1, hday, Int.add_zero]

theorem quotaMonth_mono (startDay : Nat) : Monotone (quotaMonth startDay) := by
  refine monotone_int_of_le_succ fun unix => ?_
  rw [quotaMonth_succ]
  split <;> omega

theorem dayKey_mono : Monotone dayKey := fun _ _ h => Int.ediv_le_ediv (by decide) h

/-! ### The windows -/

namespace VolumeWindow

def day (w : VolumeWindow) : Int × Nat := (w.dayKey, w.dayBytes)

def month (w : VolumeWindow) : Int × Nat := (w.monthKey, w.monthBytes)

/-- Neither sum is above the one of all. -/
def Bounded (w : VolumeWindow) : Prop := w.dayBytes ≤ w.totalBytes ∧ w.monthBytes ≤ w.totalBytes

theorem rollDay_eq (w : VolumeWindow) (dk : Int) :
    w.rollDay dk = { w with dayKey := dk, dayBytes := if w.dayKey = dk then w.dayBytes else 0 } := by
  unfold rollDay
  by_cases h : w.dayKey = dk
  · rw [if_neg (not_not_intro h), if_pos h, ← h]
  · rw [if_pos h, if_neg h]

theorem rollMonth_eq (w : VolumeWindow) (mk : Int) :
    w.rollMonth mk = { w with monthKey := mk, monthBytes := if w.monthKey = mk then w.monthBytes else 0 } := by
  unfold rollMonth
  by_cases h : w.monthKey = mk
  · rw [if_neg (not_not_intro h), if_pos h, ← h]
  · rw [if_pos h, if_neg h]

theorem addBytes_eq {w : VolumeWindow} {bytes : Nat} (h : w.Bounded) (hfits : w.totalBytes + bytes < 2 ^ 64) :
    w.addBytes bytes = some { w with
      totalBytes := w.totalBytes + bytes,
      dayBytes := w.dayBytes + bytes,
      monthBytes := w.monthBytes + bytes } := by
  obtain ⟨hday, hmonth⟩ := h
  unfold addBytes
  rw [Checked.add_of_lt hfits, Checked.add_of_lt (a := w.dayBytes) (by omega),
    Checked.add_of_lt (a := w.monthBytes) (by omega)]
  rfl

/-- **What a call does** to a window. -/
theorem addBytes_roll {w : VolumeWindow} {dk mk : Int} {bytes : Nat} (h : w.Bounded)
    (hfits : w.totalBytes + bytes < 2 ^ 64) :
    ∃ w' : VolumeWindow, ((w.rollDay dk).rollMonth mk).addBytes bytes = some w' ∧
      w'.totalBytes = w.totalBytes + bytes ∧ w'.Bounded ∧
      w'.day = Rolling.add w.day dk bytes ∧ w'.month = Rolling.add w.month mk bytes := by
  obtain ⟨hday, hmonth⟩ := h
  have hd : (if w.dayKey = dk then w.dayBytes else 0) ≤ w.totalBytes := by
    split <;> omega
  have hm : (if w.monthKey = mk then w.monthBytes else 0) ≤ w.totalBytes := by
    split <;> omega
  rw [rollMonth_eq, rollDay_eq]
  exact ⟨_, addBytes_eq ⟨hd, hm⟩ hfits, rfl,
    ⟨Nat.add_le_add_right hd bytes, Nat.add_le_add_right hm bytes⟩, rfl, rfl⟩

end VolumeWindow

/-! ### Runs -/

theorem bytesOf_concat (p : Call → Bool) (calls : List Call) (c : Call) :
    bytesOf p (calls ++ [c]) = bytesOf p calls + if p c then c.bytes else 0 := by
  unfold bytesOf
  rw [List.filter_append, List.map_append, List.sum_append]
  by_cases h : p c
  · rw [if_pos h, List.filter_cons_of_pos h]
    rfl
  · rw [if_neg h, List.filter_cons_of_neg h]
    rfl

theorem bytesOf_eq_zero {p : Call → Bool} {calls : List Call} (h : ∀ c ∈ calls, p c = false) :
    bytesOf p calls = 0 := by
  unfold bytesOf
  rw [List.filter_eq_nil_iff.mpr fun c hc => by simp [h c hc]]
  rfl

/-- What the windows hold after some calls. -/
structure Holds (startDay : Nat) (calls : List Call) (doc : VolumeDoc) : Prop where
  nodup : (doc.map Prod.fst).Nodup
  bounded : ∀ r ∈ doc, r.2.Bounded
  total : ∀ server, (doc.window server).totalBytes = bytesOf (·.server = server) calls
  day : ∀ k, (∀ c ∈ calls, dayKey c.unix ≤ k) →
    Rolling.total (fun r : Nat × VolumeWindow => r.2.day) doc k = bytesOf (dayKey ·.unix = k) calls
  month : ∀ k, (∀ c ∈ calls, quotaMonth startDay c.unix ≤ k) →
    Rolling.total (fun r : Nat × VolumeWindow => r.2.month) doc k =
      bytesOf (quotaMonth startDay ·.unix = k) calls

theorem holds_nil (startDay : Nat) : Holds startDay [] [] where
  nodup := List.nodup_nil
  bounded r hr := by cases hr
  total _ := rfl
  day _ _ := rfl
  month _ _ := rfl

theorem total_step {doc : VolumeDoc} {calls : List Call} {c : Call} {w : VolumeWindow}
    (count : VolumeWindow → Int × Nat) (key : Call → Int) (hnodup : (doc.map Prod.fst).Nodup)
    (hempty : ∀ k, Rolling.under k (count {}) = 0)
    (hcount : count w = Rolling.add (count (doc.window c.server)) (key c) c.bytes)
    (hle : ∀ c' ∈ calls, key c' ≤ key c)
    (hbefore : ∀ k, (∀ c ∈ calls, key c ≤ k) →
      Rolling.total (fun r : Nat × VolumeWindow => count r.2) doc k = bytesOf (key · = k) calls)
    {k : Int} (hk : key c ≤ k) :
    Rolling.total (fun r : Nat × VolumeWindow => count r.2) (Table.put Prod.fst doc (c.server, w)) k =
      bytesOf (key · = k) (calls ++ [c]) := by
  have hold : ∀ k, (Table.get Prod.fst doc c.server).elim 0 (fun r' => Rolling.under k (count r'.2)) =
      Rolling.under k (count (doc.window c.server)) := fun k => by
    unfold VolumeDoc.window
    cases Table.get Prod.fst doc c.server with
    | none => exact (hempty k).symm
    | some r => rfl
  rw [bytesOf_concat]
  have hsum : ∀ k', key c ≤ k' → Rolling.total (fun r : Nat × VolumeWindow => count r.2) doc k' =
      bytesOf (key · = k') calls :=
    fun k' hk' => hbefore k' fun c' hc' => (hle c' hc').trans hk'
  have hlate : ∀ k', key c < k' → bytesOf (key · = k') calls = 0 :=
    fun k' hk' => bytesOf_eq_zero fun c' hc' => by simpa using ((hle c' hc').trans_lt hk').ne
  have hput := Rolling.total_put (fun r : Nat × VolumeWindow => count r.2) (r := (c.server, w)) hnodup
    hold hcount hsum hlate hk
  rw [hput]
  simp only [decide_eq_true_eq]

theorem Holds.add {startDay : Nat} {calls : List Call} {doc : VolumeDoc} {c : Call}
    (h : Holds startDay calls doc) (htime : Signed (2 ^ 63) c.unix) (hlast : ∀ c' ∈ calls, c'.unix ≤ c.unix)
    (hfits : bytesOf (·.server = c.server) (calls ++ [c]) < 2 ^ 64) :
    ∃ doc', add startDay doc c = some doc' ∧ Holds startDay (calls ++ [c]) doc' := by
  have htotal := h.total c.server
  have hbounded : (doc.window c.server).Bounded := by
    unfold VolumeDoc.window
    cases hget : Table.get Prod.fst doc c.server with
    | none => exact ⟨Nat.le_refl 0, Nat.le_refl 0⟩
    | some r => exact h.bounded r (Table.mem_of_get hget)
  rw [bytesOf_concat, if_pos (by simp)] at hfits
  obtain ⟨w, hadd, hsum, hw, hday, hmonth⟩ :=
    @VolumeWindow.addBytes_roll _ (dayKey c.unix) (quotaMonth startDay c.unix) _ hbounded (htotal ▸ hfits)
  refine ⟨Table.put Prod.fst doc (c.server, w), ?_, ?_, ?_, ?_, ?_, ?_⟩
  · unfold Volumes.add
    rw [monthKey_eq htime, Option.bind_eq_bind, Option.bind_some, hadd]
    rfl
  · exact Table.nodup_put h.nodup
  · intro r hr
    rcases Table.mem_put hr with rfl | ⟨hr, -⟩
    · exact hw
    · exact h.bounded r hr
  · intro server
    rw [bytesOf_concat]
    unfold VolumeDoc.window
    by_cases hserver : c.server = server
    · subst hserver
      rw [@Table.get_put_self _ _ _ Prod.fst doc (c.server, w), if_pos (by simp), ← htotal]
      exact hsum
    · rw [@Table.get_put_of_ne _ _ _ Prod.fst doc (c.server, w) server hserver,
        if_neg (by simpa using hserver)]
      exact h.total server
  · intro k hk
    exact total_step VolumeWindow.day (dayKey ·.unix) h.nodup (fun _ => ite_self 0) hday
      (fun c' hc' => dayKey_mono (hlast c' hc')) h.day (hk c (by simp))
  · intro k hk
    exact total_step VolumeWindow.month (quotaMonth startDay ·.unix) h.nodup (fun _ => ite_self 0) hmonth
      (fun c' hc' => quotaMonth_mono startDay (hlast c' hc')) h.month (hk c (by simp))

/-- **All calls** in the order of time. -/
theorem holds_run {startDay : Nat} {calls : List Call} (htime : ∀ c ∈ calls, Signed (2 ^ 63) c.unix)
    (hsorted : (calls.map Call.unix).Pairwise (· ≤ ·))
    (hfits : ∀ server, bytesOf (·.server = server) calls < 2 ^ 64) :
    ∃ doc, calls.foldlM (add startDay) [] = some doc ∧ Holds startDay calls doc := by
  induction calls using List.reverseRecOn with
  | nil => exact ⟨[], rfl, holds_nil startDay⟩
  | append_singleton calls c ih =>
    rw [List.map_append, List.pairwise_append] at hsorted
    obtain ⟨doc, hrun, h⟩ := ih (fun c' hc' => htime c' (List.mem_append_left _ hc')) hsorted.1
      fun server => by
        have hall := hfits server
        rw [bytesOf_concat] at hall
        omega
    obtain ⟨doc', hadd, h'⟩ := h.add (htime c (by simp))
      (fun c' hc' => hsorted.2.2 _ (List.mem_map_of_mem hc') _ (by simp)) (hfits c.server)
    refine ⟨doc', ?_, h'⟩
    rw [List.foldlM_append, hrun]
    simp only [Option.bind_eq_bind, Option.bind_some, List.foldlM_cons, hadd, List.foldlM_nil]
    rfl

/-- Days, months and windows as the calendar has them. -/
structure FollowsCalendar (date : Int → Date) (startDay : Nat) : Prop where
  calendar : IsCalendar date
  /-- Each day whose number can be counted from the year 0. -/
  civil : ∀ z, z + 719468 < 2 ^ 63 → civilFromDays z = some (date z)
  monthKey : ∀ unix, Signed (2 ^ 63) unix → ∃ key, monthKey unix startDay = some key
  nondecreasing : ∀ unix unix', Signed (2 ^ 63) unix → Signed (2 ^ 63) unix' → unix ≤ unix' →
    ∀ key ∈ Volumes.monthKey unix startDay, ∀ key' ∈ Volumes.monthKey unix' startDay, key ≤ key'
  changes : ∀ unix, Signed (2 ^ 63) unix → Signed (2 ^ 63) (unix + 1) →
    (Volumes.monthKey unix startDay ≠ Volumes.monthKey (unix + 1) startDay ↔
      BeginsPeriod date startDay (unix + 1))
  /-- Sums of 64 bits that fit. -/
  totals : ∀ calls now, (∀ c ∈ calls, Signed (2 ^ 63) c.unix ∧ c.unix ≤ now) → Signed (2 ^ 63) now →
    (calls.map Call.unix).Pairwise (· ≤ ·) → (∀ server, bytesOf (·.server = server) calls < 2 ^ 64) →
    bytesOf (fun c => dayKey c.unix = dayKey now) calls < 2 ^ 64 →
    bytesOf (fun c => Volumes.monthKey c.unix startDay = Volumes.monthKey now startDay) calls < 2 ^ 64 →
    ∃ doc, Totals startDay calls now doc

/-- **The windows follow the calendar**, and there is only one. -/
theorem follows_calendar (startDay : Nat) : ∃! date, FollowsCalendar date startDay := by
  refine ⟨fun z => civil (z + 719468), ⟨isCalendar_civil, fun z hz => if_pos hz,
    fun unix h => ⟨_, monthKey_eq h startDay⟩, ?_, ?_, ?_⟩, fun date h =>
    h.calendar.unique isCalendar_civil⟩
  · intro unix unix' h h' hle key hkey key' hkey'
    rw [monthKey_eq h startDay, Option.mem_some_iff] at hkey
    rw [monthKey_eq h' startDay, Option.mem_some_iff] at hkey'
    subst hkey hkey'
    exact quotaMonth_mono startDay hle
  · intro unix h h'
    rw [monthKey_eq h startDay, monthKey_eq h' startDay, quotaMonth_succ]
    unfold BeginsPeriod
    split
    · next hbegin => exact iff_of_true (fun heq => by have := Option.some_inj.mp heq; omega) hbegin
    · next hbegin => exact iff_of_false (fun hne => hne (by rw [Int.add_zero])) hbegin
  · intro calls now htime hnow hsorted hserver hday hmonth
    obtain ⟨doc, hrun, h⟩ := @holds_run startDay calls (fun c hc => (htime c hc).1) hsorted hserver
    have hsame : bytesOf (fun c => Volumes.monthKey c.unix startDay = Volumes.monthKey now startDay) calls =
        bytesOf (quotaMonth startDay ·.unix = quotaMonth startDay now) calls := by
      unfold bytesOf
      refine congrArg (fun l => (l.map Call.bytes).sum) (List.filter_congr fun c hc => ?_)
      rw [monthKey_eq (htime c hc).1, monthKey_eq hnow]
      simp only [Option.some.injEq]
    refine ⟨doc, hrun, h.total, ?_, ?_⟩
    · have hsum := h.day (dayKey now) fun c hc => dayKey_mono (htime c hc).2
      rw [Rolling.total_eq] at hsum
      unfold VolumeDoc.dayTotal
      rw [Checked.sumFrom_eq _ (by decide), Nat.zero_add]
      exact (congrArg (Checked.fit 64) hsum).trans (Checked.fit_of_lt hday)
    · have hsum := h.month (quotaMonth startDay now) fun c hc => quotaMonth_mono startDay (htime c hc).2
      rw [Rolling.total_eq] at hsum
      unfold VolumeDoc.monthTotal
      rw [hsame] at hmonth ⊢
      rw [monthKey_eq hnow, Option.bind_some, Checked.sumFrom_eq _ (by decide), Nat.zero_add]
      exact (congrArg (Checked.fit 64) hsum).trans (Checked.fit_of_lt hmonth)

/-- **Not without bounds.**  A server that has given 2⁶³ bytes twice has given more than the
counter holds, and the last days that 64 bits can number have no date. -/
theorem two_halves_overflow :
    (¬∃ doc, Totals 1 [⟨0, 2 ^ 63, 0⟩, ⟨0, 2 ^ 63, 0⟩] 0 doc) ∧ civilFromDays (2 ^ 63 - 1) = none := by
  refine ⟨fun ⟨doc, h⟩ => ?_, by decide⟩
  have hnone : [⟨0, 2 ^ 63, 0⟩, ⟨0, 2 ^ 63, 0⟩].foldlM (add 1) [] = none := by decide
  rw [h.run] at hnone
  cases hnone

end Nzbd.Engine.Volumes
