import Mathlib.Data.List.Basic
import Mathlib.Data.Int.Init

/-!
# The Gregorian calendar

Dates of the calendar as it would have been at all times, and `next`, the date of the day after.
The year is taken to begin in March, so that the day that comes and goes is the last one:
`startOf y` is how many days there are before March of the year `y`, and `place_unique` says that
there is one year for each day.  In such a year the lengths of the months go by one formula
(`monthOf`, `dayOf`).
-/

namespace Calendar

structure Date where
  year : Int
  month : Nat
  day : Nat
  deriving DecidableEq

def isLeap (y : Int) : Bool := y % 4 = 0 && (y % 100 ≠ 0 || y % 400 = 0)

def daysInMonth (y : Int) (m : Nat) : Nat :=
  if m = 2 then if isLeap y then 29 else 28
  else if m = 4 ∨ m = 6 ∨ m = 9 ∨ m = 11 then 30
  else 31

namespace Date

def epoch : Date := ⟨1970, 1, 1⟩

def next (d : Date) : Date :=
  if d.day < daysInMonth d.year d.month then { d with day := d.day + 1 }
  else if d.month < 12 then ⟨d.year, d.month + 1, 1⟩
  else ⟨d.year + 1, 1, 1⟩

structure Valid (d : Date) : Prop where
  month : 1 ≤ d.month ∧ d.month ≤ 12
  day : 1 ≤ d.day ∧ d.day ≤ daysInMonth d.year d.month

end Date

/-- The dates of all days, counted from the epoch. -/
structure IsCalendar (f : Int → Date) : Prop where
  epoch : f 0 = .epoch
  valid : ∀ z, (f z).Valid
  next : ∀ z, f (z + 1) = (f z).next

theorem one_le_daysInMonth (y : Int) (m : Nat) : 28 ≤ daysInMonth y m := by
  unfold daysInMonth
  split_ifs <;> omega

theorem Date.next_injective {d d' : Date} (hd : d.Valid) (hd' : d'.Valid) (h : d.next = d'.next) : d = d' := by
  obtain ⟨⟨hmonth, hmonth'⟩, hday, hday'⟩ := hd
  obtain ⟨⟨hmonth₁, hmonth₁'⟩, hday₁, hday₁'⟩ := hd'
  obtain ⟨y, m, n⟩ := d
  obtain ⟨y₁, m₁, n₁⟩ := d'
  simp only at hmonth hmonth' hday hday' hmonth₁ hmonth₁' hday₁ hday₁'
  -- the last days of months are all that is left when the days after are told apart
  have hlast : y = y₁ → m = m₁ → ¬n < daysInMonth y m → ¬n₁ < daysInMonth y₁ m₁ → n = n₁ := by
    rintro rfl rfl hn hn₁
    omega
  unfold Date.next at h
  simp only at h
  split_ifs at h <;> simp only [Date.mk.injEq] at h ⊢ <;> omega

theorem IsCalendar.unique {f g : Int → Date} (hf : IsCalendar f) (hg : IsCalendar g) : f = g := by
  funext z
  induction z using Int.induction_on with
  | zero => rw [hf.epoch, hg.epoch]
  | succ i ih => rw [hf.next, hg.next, ih]
  | pred i ih =>
    refine Date.next_injective (hf.valid _) (hg.valid _) ?_
    rw [← hf.next, ← hg.next, Int.sub_add_cancel, ih]

/-! ### Years from March -/

/-- The days from March of the year 0 to March of the year `y`. -/
def startOf (y : Int) : Int := 365 * y + y / 4 - y / 100 + y / 400

theorem startOf_succ (y : Int) : startOf (y + 1) = startOf y + if isLeap (y + 1) then 366 else 365 := by
  unfold startOf isLeap
  simp only [Bool.and_eq_true, Bool.or_eq_true, decide_eq_true_eq]
  split_ifs <;> omega

theorem startOf_mono {y y' : Int} (h : y ≤ y') : startOf y ≤ startOf y' := by
  unfold startOf
  omega

theorem startOf_add_era (y era : Int) : startOf (y + 400 * era) = startOf y + 146097 * era := by
  unfold startOf
  omega

theorem startOf_cycle {c q j : Int} (hq : 0 ≤ 4 * q + j ∧ 4 * q + j < 100) (hj : 0 ≤ j ∧ j ≤ 3)
    (hc : 0 ≤ c ∧ c ≤ 3) : startOf (100 * c + 4 * q + j) = 36524 * c + 1461 * q + 365 * j := by
  unfold startOf
  have h4 : (100 * c + 4 * q + j) / 4 = 25 * c + q := by omega
  have h100 : (100 * c + 4 * q + j) / 100 = c := by omega
  have h400 : (100 * c + 4 * q + j) / 400 = 0 := by omega
  rw [h4, h100, h400]
  omega

theorem place_unique {y y' z : Int} (h : startOf y ≤ z ∧ z < startOf (y + 1))
    (h' : startOf y' ≤ z ∧ z < startOf (y' + 1)) : y = y' := by
  rcases Int.lt_trichotomy y y' with hlt | heq | hlt
  · have := startOf_mono (show y + 1 ≤ y' by omega)
    omega
  · exact heq
  · have := startOf_mono (show y' + 1 ≤ y by omega)
    omega

/-! ### Days of such a year -/

def marchMonth (doy : Nat) : Nat := (5 * doy + 2) / 153

def monthOf (doy : Nat) : Nat := if marchMonth doy < 10 then marchMonth doy + 3 else marchMonth doy - 9

def dayOf (doy : Nat) : Nat := doy - (153 * marchMonth doy + 2) / 5 + 1

/-- The day of a year that begins in March; January and February are in the next year. -/
def marchDate (y : Int) (doy : Nat) : Date :=
  ⟨if monthOf doy ≤ 2 then y + 1 else y, monthOf doy, dayOf doy⟩

theorem february_of_le {doy : Nat} (h : 337 ≤ doy) (hdoy : doy < 366) :
    monthOf doy = 2 ∧ dayOf doy = doy - 336 := by
  have hmonth : marchMonth doy = 11 := by
    unfold marchMonth
    omega
  unfold monthOf dayOf
  rw [hmonth]
  refine ⟨rfl, ?_⟩
  omega

theorem month_step : ∀ doy < 337, monthOf doy ≠ 2 ∧ 1 ≤ monthOf doy ∧ monthOf doy ≤ 12 ∧
    1 ≤ dayOf doy ∧
    (dayOf doy < daysInMonth 0 (monthOf doy) ∧ monthOf (doy + 1) = monthOf doy ∧
        dayOf (doy + 1) = dayOf doy + 1 ∨
      dayOf doy = daysInMonth 0 (monthOf doy) ∧ dayOf (doy + 1) = 1 ∧
        monthOf (doy + 1) = if monthOf doy < 12 then monthOf doy + 1 else 1) := by
  decide +kernel

theorem daysInMonth_eq {m : Nat} (h : m ≠ 2) (y y' : Int) : daysInMonth y m = daysInMonth y' m := by
  unfold daysInMonth
  rw [if_neg h, if_neg h]

/-- How many days there are from March to March. -/
def yearLength (y : Int) : Nat := if isLeap (y + 1) then 366 else 365

theorem marchDate_february {y : Int} {doy : Nat} (h : 337 ≤ doy) (hdoy : doy < 366) :
    marchDate y doy = ⟨y + 1, 2, doy - 336⟩ := by
  obtain ⟨hmonth, hday⟩ := february_of_le h hdoy
  rw [marchDate, hmonth, hday, if_pos (Nat.le_refl 2)]

theorem yearLength_le (y : Int) : yearLength y ≤ 366 := by
  unfold yearLength
  split <;> omega

theorem daysInMonth_two (y : Int) : daysInMonth (y + 1) 2 = yearLength y - 337 := by
  unfold yearLength
  rw [daysInMonth, if_pos rfl]
  split <;> rfl

theorem valid_marchDate {y : Int} {doy : Nat} (h : doy < yearLength y) : (marchDate y doy).Valid := by
  have hlength := yearLength_le y
  by_cases hfeb : 337 ≤ doy
  · rw [marchDate_february hfeb (by omega)]
    refine ⟨⟨Nat.le_succ 1, Nat.le_add_left 2 10⟩, ?_⟩
    rw [daysInMonth_two]
    constructor <;> simp only <;> omega
  · obtain ⟨hne, hlow, hhigh, hday, hstep⟩ := month_step doy (by omega)
    refine ⟨⟨hlow, hhigh⟩, hday, ?_⟩
    rw [marchDate, daysInMonth_eq hne _ 0]
    simp only
    omega

/-- **The day after** in the same year, or the first of March. -/
theorem next_marchDate {y : Int} {doy : Nat} (h : doy < yearLength y) : (marchDate y doy).next =
    if doy + 1 < yearLength y then marchDate y (doy + 1) else marchDate (y + 1) 0 := by
  have hlength := yearLength_le y
  by_cases hfeb : 337 ≤ doy
  · rw [marchDate_february hfeb (by omega), Date.next, daysInMonth_two]
    simp only
    by_cases hlast : doy + 1 < yearLength y
    · have hnext : doy + 1 - 336 = doy - 336 + 1 := by omega
      have hless : doy - 336 < yearLength y - 337 := by omega
      rw [if_pos hlast, if_pos hless, marchDate_february (by omega) (by omega), hnext]
    · have hless : ¬doy - 336 < yearLength y - 337 := by omega
      rw [if_neg hlast, if_neg hless]
      rfl
  · obtain ⟨hne, hlow, hhigh, hday, hstep⟩ := month_step doy (by omega)
    have hleast : 365 ≤ yearLength y := by
      unfold yearLength
      split <;> omega
    rw [if_pos (by omega), Date.next, marchDate, marchDate, daysInMonth_eq hne _ 0]
    simp only
    rcases hstep with ⟨hless, hmonth, hnext⟩ | ⟨hlast, hnext, hmonth⟩
    · rw [if_pos hless, hmonth, hnext]
    · rw [if_neg (by omega), hnext, hmonth]
      by_cases htwelve : monthOf doy < 12
      · rw [if_pos htwelve, if_pos htwelve]
        have hiff : monthOf doy + 1 ≤ 2 ↔ monthOf doy ≤ 2 := by omega
        simp only [hiff]
      · rw [if_neg htwelve, if_neg htwelve, if_neg (by omega)]
        rfl

theorem tdiv_eq_floor {n : Int} (hn : 0 < n) (z : Int) : (if 0 ≤ z then z else z - (n - 1)).tdiv n = z / n := by
  split
  · next h => exact Int.tdiv_eq_ediv_of_nonneg h
  · next h =>
    have hrem : 0 ≤ z % n ∧ z % n < n := ⟨Int.emod_nonneg z (Int.ne_of_gt hn), Int.emod_lt_of_pos z hn⟩
    have hshift : n - 1 - z = (n - 1 - z % n) + n * -(z / n) := by
      have hz := Int.mul_ediv_add_emod z n
      have hneg : n * -(z / n) = -(n * (z / n)) := Int.mul_neg n _
      omega
    have hquot : (n - 1 - z) / n = -(z / n) := by
      rw [hshift, Int.add_mul_ediv_left _ _ (Int.ne_of_gt hn),
        Int.ediv_eq_zero_of_lt (by omega) (by omega), Int.zero_add]
    rw [← Int.neg_sub (n - 1) z, Int.neg_tdiv, Int.tdiv_eq_ediv_of_nonneg (by omega), hquot, Int.neg_neg]

end Calendar
