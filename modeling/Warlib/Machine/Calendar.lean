import Mathlib.Algebra.GroupWithZero.Nat

/-!
# The calendar breakdown of a count of seconds

A library module: the proleptic Gregorian calendar, without leap seconds, as
`std::tm` presents it. `Tm.IsBreakdown` says what `gmtime` and `localtime`
(at a fixed offset from UTC) promise: the fields are in their ranges and name
the instant. It determines the fields, and it orders them:
`before_iff_minutes` compares year, month, day, hour and minute one after the
other exactly like the number of the minute.
-/

namespace Warlib.Machine

/-! ## Years and months -/

/-- Every fourth year, except every hundredth, except every four hundredth. -/
def isLeap (y : Int) : Bool := y % 4 == 0 && (y % 100 != 0 || y % 400 == 0)

/-- The days of a year. -/
def yearLength (y : Int) : Int := if isLeap y then 366 else 365

/-- The days from the first of January of the year 0 to that of the year `y`. -/
def daysBeforeYear (y : Int) : Int := 365 * y + (y + 3) / 4 - (y + 99) / 100 + (y + 399) / 400

/-- The days of the months, in a leap year or another. -/
def monthLengths (leap : Bool) : List Nat :=
  [31, if leap then 29 else 28, 31, 30, 31, 30, 31, 31, 30, 31, 30, 31]

/-- The days of the year before its month `m`, counted from 0. -/
def daysBeforeMonth (leap : Bool) (m : Nat) : Nat := ((monthLengths leap).take m).sum

theorem daysBeforeYear_succ (y : Int) :
    daysBeforeYear (y + 1) = daysBeforeYear y + yearLength y := by
  have hleap : isLeap y = true ↔ y % 4 = 0 ∧ (y % 100 ≠ 0 ∨ y % 400 = 0) := by simp [isLeap]
  unfold daysBeforeYear yearLength
  by_cases h : isLeap y = true
  · rw [if_pos h]
    rw [hleap] at h
    omega
  · rw [if_neg h]
    rw [hleap] at h
    omega

/-- Later years begin after the end of earlier ones. -/
theorem daysBeforeYear_lt {y y' : Int} (h : y < y') :
    daysBeforeYear y + yearLength y ≤ daysBeforeYear y' := by
  rw [← daysBeforeYear_succ]
  unfold daysBeforeYear
  omega

/-- Later months begin after the end of earlier ones, and the last ends with the year. -/
theorem daysBeforeMonth_lt : ∀ (leap : Bool), ∀ m < 12,
    (∀ m' < 12, m < m' →
      daysBeforeMonth leap m + (monthLengths leap).getD m 0 ≤ daysBeforeMonth leap m') ∧
    daysBeforeMonth leap m + (monthLengths leap).getD m 0 ≤ (if leap then 366 else 365) := by
  decide

/-! ## `std::tm` -/

/-- `std::tm`: years since 1900, months since January, and so on. -/
structure Tm where
  year : Int
  mon : Int
  mday : Int
  hour : Int
  min : Int
  sec : Int
  deriving DecidableEq, Repr

namespace Tm

/-- The year of the calendar. -/
def calendarYear (tm : Tm) : Int := tm.year + 1900

/-- Every field is in its range. -/
structure Valid (tm : Tm) : Prop where
  mon : 0 ≤ tm.mon ∧ tm.mon < 12
  mday : 1 ≤ tm.mday ∧
    tm.mday ≤ ((monthLengths (isLeap tm.calendarYear)).getD tm.mon.toNat 0 : Nat)
  hour : 0 ≤ tm.hour ∧ tm.hour < 24
  min : 0 ≤ tm.min ∧ tm.min < 60
  sec : 0 ≤ tm.sec ∧ tm.sec < 60

/-- The day, counted from the first of January 1970. -/
def day (tm : Tm) : Int :=
  daysBeforeYear tm.calendarYear + daysBeforeMonth (isLeap tm.calendarYear) tm.mon.toNat +
    (tm.mday - 1) - 719528

/-- The minute, counted from the same moment. -/
def minutes (tm : Tm) : Int := tm.day * 1440 + tm.hour * 60 + tm.min

/-- The second, counted from the same moment. -/
def seconds (tm : Tm) : Int := tm.minutes * 60 + tm.sec

/-- The fields are those of the instant `t` seconds after the epoch. -/
structure IsBreakdown (tm : Tm) (t : Int) : Prop where
  valid : tm.Valid
  seconds : tm.seconds = t

/-- Year, month, day, hour and minute, compared in this order. -/
def Before (a b : Tm) : Prop :=
  a.year < b.year ∨ a.year = b.year ∧ (a.mon < b.mon ∨ a.mon = b.mon ∧ (a.mday < b.mday ∨
    a.mday = b.mday ∧ (a.hour < b.hour ∨ a.hour = b.hour ∧ a.min < b.min)))

/-- The same year, month, day, hour and minute. -/
def SameMinute (a b : Tm) : Prop :=
  a.year = b.year ∧ a.mon = b.mon ∧ a.mday = b.mday ∧ a.hour = b.hour ∧ a.min = b.min

variable {a b : Tm}

/-- A day lies within its year. -/
theorem Valid.day_bounds (h : a.Valid) :
    daysBeforeYear a.calendarYear ≤ a.day + 719528 ∧
      a.day + 719528 < daysBeforeYear a.calendarYear + yearLength a.calendarYear := by
  obtain ⟨hmon, hmon'⟩ := h.mon
  obtain ⟨hmday, hmday'⟩ := h.mday
  have hend := (daysBeforeMonth_lt (isLeap a.calendarYear) a.mon.toNat (by omega)).2
  have hlength : yearLength a.calendarYear =
      ((if isLeap a.calendarYear then 366 else 365 : Nat) : Int) := by
    unfold yearLength
    split <;> rfl
  unfold day
  rw [hlength]
  omega

/-- Earlier in the calendar is earlier. -/
theorem minutes_lt_of_before (ha : a.Valid) (hb : b.Valid) (h : a.Before b) :
    a.minutes < b.minutes := by
  obtain ⟨hha, hha'⟩ := ha.hour
  obtain ⟨hhb, hhb'⟩ := hb.hour
  obtain ⟨hma, hma'⟩ := ha.min
  obtain ⟨hmb, hmb'⟩ := hb.min
  unfold minutes
  rcases h with hyear | ⟨hyear, hrest⟩
  · have hlt : a.calendarYear < b.calendarYear := by
      unfold calendarYear
      omega
    have hyears := daysBeforeYear_lt hlt
    have hday := ha.day_bounds
    have hday' := hb.day_bounds
    omega
  · have hsame : a.calendarYear = b.calendarYear := by
      unfold calendarYear
      omega
    rcases hrest with hmon | ⟨hmon, hrest⟩
    · obtain ⟨hmona, -⟩ := ha.mon
      obtain ⟨-, hmonb⟩ := hb.mon
      have hmonths := (daysBeforeMonth_lt (isLeap a.calendarYear) a.mon.toNat (by omega)).1
        b.mon.toNat (by omega) (by omega)
      have hmday := ha.mday
      have hmday' := hb.mday
      have hlt : a.day < b.day := by
        unfold day
        rw [← hsame]
        omega
      omega
    · have hdays : b.day - a.day = b.mday - a.mday := by
        unfold day
        rw [hsame, hmon]
        omega
      omega

/-- **The order of the calendar.** The fields down to the minute are compared one
after the other exactly like the number of the minute; they are the same when
the minute is. -/
theorem before_iff_minutes (ha : a.Valid) (hb : b.Valid) :
    (a.Before b ↔ a.minutes < b.minutes) ∧ (a.SameMinute b ↔ a.minutes = b.minutes) := by
  have hforward := minutes_lt_of_before ha hb
  have hbackward := minutes_lt_of_before hb ha
  have hsame : a.SameMinute b → a.minutes = b.minutes := by
    rintro ⟨hyear, hmon, hmday, hhour, hmin⟩
    unfold minutes day calendarYear
    rw [hyear, hmon, hmday, hhour, hmin]
  have htotal : a.Before b ∨ a.SameMinute b ∨ b.Before a := by
    unfold Before SameMinute
    omega
  refine ⟨⟨hforward, fun hlt => ?_⟩, ⟨hsame, fun heq => ?_⟩⟩
  · rcases htotal with hab | hab | hab
    · exact hab
    · exact absurd (hsame hab) (by omega)
    · exact absurd (hbackward hab) (by omega)
  · rcases htotal with hab | hab | hab
    · exact absurd (hforward hab) (by omega)
    · exact hab
    · exact absurd (hbackward hab) (by omega)

/-- The minute of an instant is the whole part of its seconds. -/
theorem IsBreakdown.minutes {t : Int} (h : a.IsBreakdown t) : a.minutes = t / 60 := by
  obtain ⟨hsec, hsec'⟩ := h.valid.sec
  have htotal := h.seconds
  unfold Tm.seconds at htotal
  omega

end Tm

end Warlib.Machine
