import Warlib.Logging.Format

/-!
# What a timestamp tells

`WriteTimestamp` writes year, month, day, hour, minute and milliseconds, each
in a field of fixed width; the second is not among them, although the text it
writes when the conversion fails has a place for it. `timestamp_eq` is the
text; `stamp_lt_iff` compares two of them field by field, and the calendar
turns that into a comparison of instants.

Two texts are in the order of their instants when the minutes differ, or when
the milliseconds happen to be in that order. That is all that can be said
(`timestamps_ordered`).
-/

namespace Warlib.Logging

open Warlib.Machine

/-! ## The text -/

/-- The fields of a timestamp. -/
def stamp (tm : Tm) (milliseconds : Int) : List Char :=
  zeroFilled 4 (tm.year + 1900) ++ '-' :: (zeroFilled 2 (tm.mon + 1) ++ '-' :: (zeroFilled 2 tm.mday ++
    ' ' :: (zeroFilled 2 tm.hour ++ ':' :: (zeroFilled 2 tm.min ++ '.' :: zeroFilled 3 milliseconds))))

/-- The text of the timestamp of an instant. -/
def timestamp (env : Surroundings) (time : Int) : List Char :=
  match env.localtime (env.clock.split time).1 with
  | some tm => stamp tm (env.clock.split time).2
  | none => "0000-00-00 00:00:00.000".toList

variable (env : Surroundings) {out : Ostream}

/-- A plain stream gets the text, and is plain afterwards. -/
theorem writeTimestamp_eq (h : out.Plain) (si : SubmitInfo) :
    ∃ fill, writeTimestamp env out si =
      { out with text := out.text ++ timestamp env si.time, fill } := by
  unfold writeTimestamp timestamp
  dsimp only
  cases env.localtime (env.clock.split si.time).1 with
  | none => exact ⟨out.fill, h.putString _⟩
  | some tm =>
    have hplain : ∀ text, ({ out with text, fill := '0' } : Ostream).Plain := fun text =>
      h.of_eq rfl rfl
    have hzero : out.setfill '0' = { out with text := out.text, fill := '0' } := rfl
    have hchar : ∀ text c, ({ out with text, fill := '0' } : Ostream).putChar c =
        { out with text := text ++ [c], fill := '0' } := fun text c => (hplain text).putChar c
    have hint : ∀ text k n, (({ out with text, fill := '0' } : Ostream).setw k).putInt n =
        { out with text := text ++ zeroFilled k n, fill := '0' } :=
      fun text k n => (hplain text).putFilled rfl k n
    have hlast : ∀ text k n,
        ((({ out with text, fill := '0' } : Ostream).setw k).setfill '0').putInt n =
        { out with text := text ++ zeroFilled k n, fill := '0' } := hint
    refine ⟨'0', ?_⟩
    dsimp only
    rw [hzero, hint, hchar, hint, hchar, hint, hchar, hint, hchar, hint, hchar, hlast]
    simp [stamp]

/-! ## Two timestamps -/

/-- The ranges in which the fields have the width they are written with. -/
structure Printable (tm : Tm) : Prop where
  valid : tm.Valid
  year : 0 ≤ tm.calendarYear ∧ tm.calendarYear ≤ 9999

/-- The fields are numbers that fit their widths. -/
theorem Printable.stamp_eq {tm : Tm} (h : Printable tm) {ms : Int} (hms : 0 ≤ ms) :
    stamp tm ms = zeroPadded 4 tm.calendarYear.toNat ++ '-' :: (zeroPadded 2 (tm.mon.toNat + 1) ++
      '-' :: (zeroPadded 2 tm.mday.toNat ++ ' ' :: (zeroPadded 2 tm.hour.toNat ++ ':' ::
        (zeroPadded 2 tm.min.toNat ++ '.' :: zeroPadded 3 ms.toNat)))) := by
  have hfield : ∀ (k : Nat) (n : Int) (m : Nat), n = m → zeroFilled k n = zeroPadded k m := by
    rintro k n m rfl
    exact zeroFilled_natCast k m
  have hmon := h.valid.mon
  have hmday := h.valid.mday
  have hhour := h.valid.hour
  have hmin := h.valid.min
  have hyear := h.year
  unfold Tm.calendarYear at hyear ⊢
  unfold stamp
  rw [hfield 4 _ (tm.year + 1900).toNat (by omega), hfield 2 _ (tm.mon.toNat + 1) (by omega),
    hfield 2 tm.mday tm.mday.toNat (by omega), hfield 2 tm.hour tm.hour.toNat (by omega),
    hfield 2 tm.min tm.min.toNat (by omega), hfield 3 ms ms.toNat (by omega)]

/-- What the widths hold. -/
theorem Printable.fits {tm : Tm} (h : Printable tm) :
    tm.calendarYear.toNat < 10 ^ 4 ∧ tm.mon.toNat + 1 < 10 ^ 2 ∧ tm.mday.toNat < 10 ^ 2 ∧
      tm.hour.toNat < 10 ^ 2 ∧ tm.min.toNat < 10 ^ 2 := by
  have hmon := h.valid.mon
  have hmday := h.valid.mday
  have hhour := h.valid.hour
  have hmin := h.valid.min
  have hyear := h.year
  have hmonth : (monthLengths (isLeap tm.calendarYear)).getD tm.mon.toNat 0 ≤ 31 := by
    have hall : ∀ leap : Bool, ∀ m < 12, (monthLengths leap).getD m 0 ≤ 31 := by decide
    exact hall _ _ (by omega)
  omega

/-- Numbers from the same start are compared like the natural numbers they are. -/
theorem toNat_lt_iff {m n : Int} (hm : 0 ≤ m) (hn : 0 ≤ n) :
    (m.toNat < n.toNat ↔ m < n) ∧ (m.toNat = n.toNat ↔ m = n) := by
  omega

variable {a b : Tm} {ms ms' : Int}

/-- **Field by field.** The texts are compared like the minutes and, within a minute,
like the milliseconds; they are equal when both are. -/
theorem stamp_lt_iff (ha : Printable a) (hb : Printable b) (hms : 0 ≤ ms ∧ ms < 1000)
    (hms' : 0 ≤ ms' ∧ ms' < 1000) :
    (stamp a ms < stamp b ms' ↔ a.minutes < b.minutes ∨ a.minutes = b.minutes ∧ ms < ms') ∧
      (stamp a ms = stamp b ms' ↔ a.minutes = b.minutes ∧ ms = ms') := by
  obtain ⟨hya, hma, hda, hha, hia⟩ := ha.fits
  obtain ⟨hyb, hmb, hdb, hhb, hib⟩ := hb.fits
  have hsa : ms.toNat < 10 ^ 3 := by omega
  have hsb : ms'.toNat < 10 ^ 3 := by omega
  obtain ⟨hbefore, hsame⟩ := Tm.before_iff_minutes ha.valid hb.valid
  obtain ⟨hyear, hyear_eq⟩ := toNat_lt_iff ha.year.1 hb.year.1
  obtain ⟨hmon, hmon_eq⟩ := toNat_lt_iff ha.valid.mon.1 hb.valid.mon.1
  obtain ⟨hmday, hmday_eq⟩ := toNat_lt_iff (Int.le_trans (by decide) ha.valid.mday.1)
    (Int.le_trans (by decide) hb.valid.mday.1)
  obtain ⟨hhour, hhour_eq⟩ := toNat_lt_iff ha.valid.hour.1 hb.valid.hour.1
  obtain ⟨hmin, hmin_eq⟩ := toNat_lt_iff ha.valid.min.1 hb.valid.min.1
  obtain ⟨hmilli, hmilli_eq⟩ := toNat_lt_iff hms.1 hms'.1
  have hcal : a.calendarYear < b.calendarYear ↔ a.year < b.year := by
    unfold Tm.calendarYear
    omega
  have hcal_eq : a.calendarYear = b.calendarYear ↔ a.year = b.year := by
    unfold Tm.calendarYear
    omega
  rw [ha.stamp_eq hms.1, hb.stamp_eq hms'.1, ← hbefore, ← hsame]
  unfold Tm.Before Tm.SameMinute
  constructor
  · rw [field_lt_iff (by decide) hya hyb, field_lt_iff (by decide) hma hmb,
      field_lt_iff (by decide) hda hdb, field_lt_iff (by decide) hha hhb,
      field_lt_iff (by decide) hia hib, zeroPadded_lt_iff (by decide) hsa hsb, hyear, hyear_eq,
      hcal, hcal_eq, Nat.add_lt_add_iff_right, Nat.add_right_cancel_iff, hmon, hmon_eq, hmday,
      hmday_eq, hhour, hhour_eq, hmin, hmin_eq, hmilli]
    simp only [and_or_left, or_assoc, and_assoc]
  · rw [field_inj (by decide) hya hyb, field_inj (by decide) hma hmb,
      field_inj (by decide) hda hdb, field_inj (by decide) hha hhb,
      field_inj (by decide) hia hib, zeroPadded_inj (by decide) hsa hsb, hyear_eq, hcal_eq,
      Nat.add_right_cancel_iff, hmon_eq, hmday_eq, hhour_eq, hmin_eq, hmilli_eq]
    simp only [and_assoc]

/-! ## The order of timestamps -/

/-- What `WriteTimestamp` writes to a stream. -/
def writtenTimestamp (env : Surroundings) (out : Ostream) (si : SubmitInfo) : List Char :=
  (writeTimestamp env out si).text.drop out.text.length

variable {env}

theorem writtenTimestamp_eq (h : out.Plain) (si : SubmitInfo) :
    writtenTimestamp env out si = timestamp env si.time := by
  obtain ⟨fill, hwrite⟩ := writeTimestamp_eq env h si
  rw [writtenTimestamp, hwrite]
  exact List.drop_left

/-- The last whole second before an instant. -/
def SystemClock.second (c : SystemClock) (time : Int) : Int := time / c.perSecond

/-- The milliseconds since then. -/
def SystemClock.millisecond (c : SystemClock) (time : Int) : Int :=
  time % c.perSecond * 1000 / c.perSecond

/-- The minute of an instant, at an offset in seconds from UTC. -/
def SystemClock.localMinute (c : SystemClock) (offset time : Int) : Int :=
  (c.second time + offset) / 60

/-- The conversion to local time gives the calendar at this offset, in a year of
at most four digits. -/
def Converts (env : Surroundings) (offset time : Int) : Prop :=
  ∃ tm, env.localtime (env.clock.second time) = some tm ∧
    tm.IsBreakdown (env.clock.second time + offset) ∧
    0 ≤ tm.calendarYear ∧ tm.calendarYear ≤ 9999

/-- The timestamp of an instant that can be converted. -/
theorem Converts.timestamp {offset time : Int} (h : Converts env offset time) :
    ∃ tm, Printable tm ∧ tm.minutes = env.clock.localMinute offset time ∧
      timestamp env time = stamp tm (env.clock.millisecond time) := by
  obtain ⟨tm, hlocal, hbreak, hyear⟩ := h
  refine ⟨tm, ⟨hbreak.valid, hyear⟩, hbreak.minutes, ?_⟩
  unfold Logging.timestamp
  rw [env.clock.split_eq]
  show (match env.localtime (env.clock.second time) with
    | some tm => stamp tm (env.clock.millisecond time)
    | none => _) = _
  rw [hlocal]

/-- **Timestamps.** Of two instants at least a millisecond apart, the earlier one has
the lesser timestamp if and only if they are in different minutes or it has
fewer milliseconds in its second; and the timestamps are equal if and only if
the minutes and these milliseconds are. -/
theorem timestamps_ordered {offset : Int} {si si' : SubmitInfo} {out' : Ostream} (hout : out.Plain)
    (hout' : out'.Plain) (hconverts : Converts env offset si.time)
    (hconverts' : Converts env offset si'.time)
    (hlater : env.clock.perSecond ≤ (si'.time - si.time) * 1000) :
    (writtenTimestamp env out si < writtenTimestamp env out' si' ↔
      env.clock.localMinute offset si.time ≠ env.clock.localMinute offset si'.time ∨
        env.clock.millisecond si.time < env.clock.millisecond si'.time) ∧
    (writtenTimestamp env out si = writtenTimestamp env out' si' ↔
      env.clock.localMinute offset si.time = env.clock.localMinute offset si'.time ∧
        env.clock.millisecond si.time = env.clock.millisecond si'.time) := by
  have hpos : (0 : Int) < env.clock.perSecond := by exact_mod_cast env.clock.positive
  have hms : ∀ time, 0 ≤ env.clock.millisecond time ∧ env.clock.millisecond time < 1000 := by
    intro time
    have hbounds := env.clock.milliseconds_bounds time
    rw [env.clock.split_eq] at hbounds
    exact hbounds
  have hseconds : env.clock.second si.time ≤ env.clock.second si'.time :=
    Int.ediv_le_ediv hpos (by omega)
  have hminutes : env.clock.localMinute offset si.time ≤ env.clock.localMinute offset si'.time := by
    unfold SystemClock.localMinute
    omega
  obtain ⟨tm, hprintable, hminute, htext⟩ := hconverts.timestamp
  obtain ⟨tm', hprintable', hminute', htext'⟩ := hconverts'.timestamp
  obtain ⟨hlt, heq⟩ := stamp_lt_iff hprintable hprintable' (hms si.time) (hms si'.time)
  rw [writtenTimestamp_eq hout, writtenTimestamp_eq hout', htext, htext', hlt, heq, hminute,
    hminute']
  constructor
  · omega
  · rfl

/-- `gmtime_r` on the first of January 1970. -/
def firstDay (when' : Int) : Option Tm :=
  if 0 ≤ when' ∧ when' < 86400 then
    some ⟨70, 0, 1, when' / 3600, when' / 60 % 60, when' % 60⟩
  else none

/-- A clock of microseconds, in that time zone on that day. -/
def dayOne : Surroundings where
  clock := ⟨1000000, .towardZero, by decide⟩
  localtime := firstDay
  iscntrl c := c.toNat < 32
  isspace c := c.isWhitespace

theorem dayOne_converts {time : Int} (h : 0 ≤ time ∧ time < 86400000000) :
    Converts dayOne 0 time := by
  have hsecond : dayOne.clock.second time = time / 1000000 := rfl
  refine ⟨⟨70, 0, 1, time / 1000000 / 3600, time / 1000000 / 60 % 60, time / 1000000 % 60⟩, ?_,
    ⟨⟨?_, ?_, ?_, ?_, ?_⟩, ?_⟩, ?_⟩
  · rw [hsecond]
    exact if_pos (by omega)
  · show (0 : Int) ≤ 0 ∧ (0 : Int) < 12
    decide
  · show (1 : Int) ≤ 1 ∧ (1 : Int) ≤ ((monthLengths (isLeap (70 + 1900))).getD 0 0 : Nat)
    decide
  · dsimp only
    omega
  · dsimp only
    omega
  · dsimp only
    omega
  · rw [hsecond]
    have hday : (⟨70, 0, 1, time / 1000000 / 3600, time / 1000000 / 60 % 60,
        time / 1000000 % 60⟩ : Tm).day = 0 := by
      show daysBeforeYear (70 + 1900) + (daysBeforeMonth (isLeap (70 + 1900)) 0 : Nat) + (1 - 1) -
        719528 = 0
      decide
    unfold Tm.seconds Tm.minutes
    rw [hday]
    dsimp only
    omega
  · show (0 : Int) ≤ 70 + 1900 ∧ (70 : Int) + 1900 ≤ 9999
    decide

/-- A tenth of a second before the minute is over, and the next minute. -/
theorem timestamps_ordered_minute :
    writtenTimestamp dayOne {} ⟨.info, 1, "", 59900000⟩ <
      writtenTimestamp dayOne {} ⟨.info, 1, "", 60000000⟩ :=
  (timestamps_ordered ⟨rfl, rfl⟩ ⟨rfl, rfl⟩ (dayOne_converts (by decide))
    (dayOne_converts (by decide)) (by decide)).1.mpr (Or.inl (by decide))

/-- Half a second past midnight and one second past midnight: the later event has the
lesser timestamp. And half a second past the first second has the same
timestamp as half a second past midnight. -/
theorem timestamps_out_of_order :
    (dayOne.clock.perSecond : Int) ≤ (1000000 - 500000) * 1000 ∧
    Converts dayOne 0 500000 ∧ Converts dayOne 0 1000000 ∧ Converts dayOne 0 1500000 ∧
    ¬writtenTimestamp dayOne {} ⟨.info, 1, "", 500000⟩ <
      writtenTimestamp dayOne {} ⟨.info, 1, "", 1000000⟩ ∧
    writtenTimestamp dayOne {} ⟨.info, 1, "", 500000⟩ =
      writtenTimestamp dayOne {} ⟨.info, 1, "", 1500000⟩ :=
  ⟨by decide, dayOne_converts (by decide), dayOne_converts (by decide),
    dayOne_converts (by decide), by decide, by decide⟩

end Warlib.Logging
