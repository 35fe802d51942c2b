import Nzbd.Engine.Schedule

/-!
# The age of an article

The date of a file comes from the NZB and may be any number of 64 bits.  It is taken from the
clock, and the days are cut down to 32 bits; once when a segment is looked for and once when an
attempt has failed.  And the date with the propagation delay says when the file may be looked at.

Nothing is lost on the way as long as the article is less than 2³² days old and the propagation
does not end behind the last second there is (`unbroken_iff`).
-/

namespace Nzbd.Engine

open Numeral (Signed)

/-- A number of 64 bits.  One that is out of range stops the program if it has been built with
the checks, and wraps if not. -/
def toI64 (checks : Bool) (x : Int) : Option Int :=
  if -2 ^ 63 ≤ x ∧ x < 2 ^ 63 then some x else if checks then none else some (x.bmod (2 ^ 64))

def ageDays (checks : Bool) (now date : Int) : Option Nat :=
  (toI64 checks (now - date)).map fun x => (max x 0 / 86400).toNat % 2 ^ 32

/-- The age in `next_for_server`. -/
def nextForServerAge (checks : Bool) (now : Int) (date : Option Int) : Option (Option Nat) :=
  match date with
  | none => some none
  | some d => (ageDays checks now d).map some

/-- The age in `on_segment_failed`. -/
def onSegmentFailedAge (checks : Bool) (now : Int) (date : Option Int) : Option (Option Nat) :=
  nextForServerAge checks now date

/-- Not yet propagated everywhere. -/
def tooYoung (checks : Bool) (now delay : Int) (date : Option Int) : Option Bool :=
  if 0 < delay then
    match date with
    | none => some false
    | some d => (toI64 checks (d + delay)).map fun x => now < x
  else some false

/-- What the age should be. -/
def cappedDays (now date : Int) : Nat := (min (max (now - date) 0 / 86400) (2 ^ 32 - 1)).toNat

/-- **What is claimed** of a date, for every clock up to `T`. -/
structure Unbroken (checks : Bool) (delay date T : Int) : Prop where
  fits : ∀ now, 0 ≤ now → now ≤ T → Signed (2 ^ 63) (now - date)
  whole : ∀ now, 0 ≤ now → now ≤ T → max (now - date) 0 / 86400 < 2 ^ 32
  queue : ∀ now, 0 ≤ now → now ≤ T →
    nextForServerAge checks now (some date) = some (some (cappedDays now date))
  owner : ∀ now, 0 ≤ now → now ≤ T →
    onSegmentFailedAge checks now (some date) = nextForServerAge checks now (some date)
  /-- A server that does not keep the article any more does not keep it later. -/
  retention : ∀ now now', 0 ≤ now → now ≤ now' → now' ≤ T → ∀ s age age',
    nextForServerAge checks now (some date) = some age →
    nextForServerAge checks now' (some date) = some age' →
    Ladder.retentionExceeded s age = true → Ladder.retentionExceeded s age' = true
  grows : ∀ now now', 0 ≤ now → now ≤ now' → now' ≤ T → ∀ days days',
    nextForServerAge checks now (some date) = some (some days) →
    nextForServerAge checks now' (some date) = some (some days') → days ≤ days'
  young : ∀ now, 0 ≤ now → now ≤ T →
    tooYoung checks now delay (some date) = some (0 < delay && now < date + delay)
  propagated : ∀ now now', 0 ≤ now → now ≤ now' → now' ≤ T →
    tooYoung checks now delay (some date) = some false →
    tooYoung checks now' delay (some date) = some false

/-- **The condition.**  At the last clock the article is less than 2³² days old, and the
propagation ends within 64 bits. -/
structure Datable (delay date T : Int) : Prop where
  age : T - date < 2 ^ 32 * 86400
  propagation : 0 < delay → date + delay < 2 ^ 63

variable {checks : Bool} {now now' delay date T : Int}

theorem toI64_of_signed {x : Int} (h : Signed (2 ^ 63) x) : toI64 checks x = some x := by
  obtain ⟨hlow, hhigh⟩ := h
  exact if_pos ⟨by simpa using hlow, by simpa using hhigh⟩

theorem cappedDays_mono (h : now ≤ now') : cappedDays now date ≤ cappedDays now' date := by
  unfold cappedDays
  omega

namespace Datable

variable (h : Datable delay date T) (hdate : Signed (2 ^ 63) date)

include h hdate

theorem fits (hnow : 0 ≤ now) (hT : now ≤ T) : Signed (2 ^ 63) (now - date) := by
  have hage := h.age
  obtain ⟨hlow, hhigh⟩ := hdate
  constructor <;> omega

theorem nextForServerAge_eq (hnow : 0 ≤ now) (hT : now ≤ T) :
    nextForServerAge checks now (some date) = some (some (cappedDays now date)) := by
  have hage := h.age
  rw [nextForServerAge, ageDays, toI64_of_signed (h.fits hdate hnow hT), Option.map_some, Option.map_some,
    cappedDays]
  congr 2
  omega

theorem tooYoung_eq :
    tooYoung checks now delay (some date) = some (0 < delay && now < date + delay) := by
  unfold tooYoung
  split
  · next hpos =>
    have hend := h.propagation hpos
    have hsum : Signed (2 ^ 63) (date + delay) := by
      obtain ⟨hlow, -⟩ := hdate
      constructor <;> omega
    simp [toI64_of_signed hsum, hpos]
  · next hpos => simp [hpos]

end Datable

/-- **Dates do not break the schedule** exactly as long as the article is not too old and its
propagation ends in time. -/
theorem unbroken_iff (hdate : Signed (2 ^ 63) date) (hdelay : Signed (2 ^ 63) delay) (hT : 0 ≤ T) :
    Unbroken checks delay date T ↔ Datable delay date T := by
  constructor
  · intro h
    refine ⟨?_, fun hpos => ?_⟩
    · have hwhole := h.whole T hT le_rfl
      omega
    · by_contra hover
      obtain ⟨hlow, hhigh⟩ := hdate
      obtain ⟨hlow', hhigh'⟩ := hdelay
      have hyoung := h.young 0 le_rfl hT
      have hout : ¬(-2 ^ 63 ≤ date + delay ∧ date + delay < 2 ^ 63) := fun hin => hover hin.2
      cases checks with
      | true =>
        have hnone : tooYoung true 0 delay (some date) = none := by
          rw [tooYoung, if_pos hpos, toI64, if_neg hout]
          rfl
        rw [hnone] at hyoung
        cases hyoung
      | false =>
        -- the sum wraps and is negative
        have hwrap : (date + delay).bmod (2 ^ 64) < 0 := by
          rw [Int.bmod_def]
          split <;> omega
        simp only [tooYoung, hpos, if_true, toI64, hout, if_false, Bool.false_eq_true, Option.map_some,
          decide_true, Bool.true_and, Option.some.injEq, decide_eq_decide] at hyoung
        omega
  · intro h
    exact {
      fits := fun now hnow hle => h.fits hdate hnow hle
      whole := fun now hnow hle => by
        have := h.age
        omega
      queue := fun now hnow hle => h.nextForServerAge_eq hdate hnow hle
      owner := fun _ _ _ => rfl
      retention := fun now now' hnow hlater hle s age age' hage hage' hexceeded => by
        rw [h.nextForServerAge_eq hdate hnow (hlater.trans hle), Option.some.injEq] at hage
        rw [h.nextForServerAge_eq hdate (hnow.trans hlater) hle, Option.some.injEq] at hage'
        obtain ⟨rfl, rfl⟩ := And.intro hage hage'
        have hmono : cappedDays now date ≤ cappedDays now' date := cappedDays_mono hlater
        simp only [Ladder.retentionExceeded, Bool.and_eq_true, decide_eq_true_eq] at hexceeded ⊢
        exact ⟨hexceeded.1, hexceeded.2.trans_le hmono⟩
      grows := fun now now' hnow hlater hle days days' hdays hdays' => by
        rw [h.nextForServerAge_eq hdate hnow (hlater.trans hle), Option.some.injEq,
          Option.some.injEq] at hdays
        rw [h.nextForServerAge_eq hdate (hnow.trans hlater) hle, Option.some.injEq,
          Option.some.injEq] at hdays'
        rw [← hdays, ← hdays']
        exact cappedDays_mono hlater
      young := fun now _ _ => h.tooYoung_eq hdate
      propagated := fun now now' _ hlater _ hold => by
        rw [h.tooYoung_eq hdate, Option.some.injEq, Bool.and_eq_false_iff, decide_eq_false_iff_not,
          decide_eq_false_iff_not] at hold ⊢
        exact hold.imp_right fun hpast => by omega }

/-- A recent article. -/
theorem unbroken_iff_recent : Unbroken true 3600 1700000000 1800000000 :=
  (unbroken_iff ⟨by decide, by decide⟩ ⟨by decide, by decide⟩ (by decide)).mpr ⟨by decide, fun _ => by decide⟩

/-- The first second of 64 bits: the difference overflows, and wraps to no age at all. -/
theorem first_second_overflows :
    nextForServerAge true 1700000000 (some (-2 ^ 63)) = none ∧
      nextForServerAge false 1700000000 (some (-2 ^ 63)) = some (some 0) ∧
      cappedDays 1700000000 (-2 ^ 63) = 2 ^ 32 - 1 ∧
      ¬Unbroken true 0 (-2 ^ 63) 1700000000 ∧ ¬Unbroken false 0 (-2 ^ 63) 1700000000 := by
  refine ⟨by decide, by decide, by decide, fun h => ?_, fun h => ?_⟩
  · exact absurd (h.whole 1700000000 (by decide) le_rfl) (by decide)
  · exact absurd (h.whole 1700000000 (by decide) le_rfl) (by decide)

end Nzbd.Engine
