import Mathlib.Data.List.Forall2
import Warlib.Machine.Lts
import Warlib.Machine.Ostream

/-!
# A timer that is shown again and again

`Timer` takes the time when it is constructed; `Stream` shows what has passed
since, and `Stop` keeps it from running on. The unit is the greatest of which
more than five have passed, so what is shown is a rounded time, and the unit
changes on the way.

`reading_floor` is about one time span: it is rounded down by less than one
unit. `reading_mono` compares two of them, and `timer_never_goes_back` is about
everything one timer ever shows.

Mirroring notes:

* `perMicro` is the number of ticks of `steady_clock` in a microsecond; its
  readings are given, and never go back.
* `end_` is not initialised by `Timer()` other than to the epoch; nothing reads it
  before `Stop`.
-/

namespace Warlib.Logging

open Warlib.Machine

/-! ## The timer -/

/-- `Timer`. -/
structure Timer where
  start : Int
  end_ : Int := 0
  isRunning : Bool := true
  deriving DecidableEq, Repr

/-- `Timer()` at the time `now`. -/
def Timer.new (now : Int) : Timer := { start := now }

/-- `Stop()` at the time `now`. -/
def Timer.stop (t : Timer) (now : Int) : Timer := { t with end_ := now, isRunning := false }

/-- `duration` in `Stream`. -/
def Timer.duration (t : Timer) (now : Int) : Int := (if t.isRunning then now else t.end_) - t.start

variable (perMicro : Nat)

/-- `duration_cast<D>(duration).count()`, for a `D` of so many microseconds. -/
def durationCast (micros duration : Int) : Int := duration.tdiv (micros * perMicro)

/-- `Stream(o)` at the time `now`. -/
def Timer.stream (t : Timer) (now : Int) (o : Ostream) : Ostream :=
  let duration := t.duration now
  let mi := durationCast perMicro 60000000 duration
  if mi > 5 then (o.putInt mi).putString " minutes".toList
  else
    let sec := durationCast perMicro 1000000 duration
    if sec > 5 then (o.putInt sec).putString " seconds".toList
    else
      let ms := durationCast perMicro 1000 duration
      if ms > 5 then (o.putInt ms).putString " milliseconds".toList
      else (o.putInt (durationCast perMicro 1 duration)).putString " microseconds".toList

/-! ## One time span -/

/-- The units, with the microseconds in each. -/
inductive TimeUnit
  | minutes
  | seconds
  | milliseconds
  | microseconds
  deriving DecidableEq, Repr

def TimeUnit.micros : TimeUnit → Int
  | .minutes => 60000000
  | .seconds => 1000000
  | .milliseconds => 1000
  | .microseconds => 1

def TimeUnit.name : TimeUnit → String
  | .minutes => " minutes"
  | .seconds => " seconds"
  | .milliseconds => " milliseconds"
  | .microseconds => " microseconds"

/-- What is shown: a number of units. -/
structure Reading where
  count : Int
  unit : TimeUnit
  deriving DecidableEq, Repr

/-- The time it stands for, in microseconds. -/
def Reading.micros (r : Reading) : Int := r.count * r.unit.micros

/-- How it is shown. -/
def Reading.text (r : Reading) : List Char := zeroFilled 0 r.count ++ r.unit.name.toList

/-- The reading of whole microseconds. -/
def reading (q : Int) : Reading :=
  if q / 60000000 > 5 then ⟨q / 60000000, .minutes⟩
  else if q / 1000000 > 5 then ⟨q / 1000000, .seconds⟩
  else if q / 1000 > 5 then ⟨q / 1000, .milliseconds⟩
  else ⟨q, .microseconds⟩

theorem TimeUnit.micros_pos (u : TimeUnit) : 0 < u.micros := by
  cases u <;> decide

/-- The unit is the greatest of which more than five have passed. -/
theorem reading_minutes {q : Int} (h : q / 60000000 > 5) :
    reading q = ⟨q / 60000000, .minutes⟩ := if_pos h

theorem reading_seconds {q : Int} (hmi : ¬q / 60000000 > 5) (h : q / 1000000 > 5) :
    reading q = ⟨q / 1000000, .seconds⟩ := by
  rw [reading, if_neg hmi, if_pos h]

theorem reading_milliseconds {q : Int} (hmi : ¬q / 60000000 > 5) (hsec : ¬q / 1000000 > 5)
    (h : q / 1000 > 5) : reading q = ⟨q / 1000, .milliseconds⟩ := by
  rw [reading, if_neg hmi, if_neg hsec, if_pos h]

/-- It is a count of its unit, and of more than five unless it is the smallest. -/
theorem reading_count (q : Int) : (reading q).count = q / (reading q).unit.micros ∧
    ((reading q).unit ≠ .microseconds → 5 < (reading q).count) := by
  unfold reading
  split
  · exact ⟨rfl, fun _ => ‹_›⟩
  split
  · exact ⟨rfl, fun _ => ‹_›⟩
  split
  · exact ⟨rfl, fun _ => ‹_›⟩
  · exact ⟨(Int.ediv_one q).symm, fun hunit => absurd rfl hunit⟩

/-- **A time is rounded down to whole units.** -/
theorem reading_floor (q : Int) :
    (reading q).micros ≤ q ∧ q < (reading q).micros + (reading q).unit.micros := by
  have hpos := (reading q).unit.micros_pos
  have hnear := Int.lt_ediv_add_one_mul_self q hpos
  rw [Int.add_mul, Int.one_mul] at hnear
  rw [Reading.micros, (reading_count q).1]
  exact ⟨Int.ediv_mul_le q (Int.ne_of_gt hpos), hnear⟩

/-- In the unit of a longer time, a time has at most five, or it has that unit, too. -/
theorem reading_unit {q q' : Int} (h : q ≤ q') :
    (reading q).unit = (reading q').unit ∨
      (reading q').unit ≠ .microseconds ∧ q / (reading q').unit.micros ≤ 5 := by
  by_cases hmi' : q' / 60000000 > 5
  · rw [reading_minutes hmi']
    by_cases hmi : q / 60000000 > 5
    · rw [reading_minutes hmi]
      exact Or.inl rfl
    · exact Or.inr ⟨TimeUnit.noConfusion, Int.not_lt.mp hmi⟩
  have hmi : ¬q / 60000000 > 5 := by omega
  by_cases hsec' : q' / 1000000 > 5
  · rw [reading_seconds hmi' hsec']
    by_cases hsec : q / 1000000 > 5
    · rw [reading_seconds hmi hsec]
      exact Or.inl rfl
    · exact Or.inr ⟨TimeUnit.noConfusion, Int.not_lt.mp hsec⟩
  have hsec : ¬q / 1000000 > 5 := by omega
  by_cases hms' : q' / 1000 > 5
  · rw [reading_milliseconds hmi' hsec' hms']
    by_cases hms : q / 1000 > 5
    · rw [reading_milliseconds hmi hsec hms]
      exact Or.inl rfl
    · exact Or.inr ⟨TimeUnit.noConfusion, Int.not_lt.mp hms⟩
  have hms : ¬q / 1000 > 5 := by omega
  refine Or.inl ?_
  rw [reading, reading, if_neg hmi, if_neg hsec, if_neg hms, if_neg hmi', if_neg hsec', if_neg hms']

/-- **A longer time is never shown as a shorter one**, whatever the units. -/
theorem reading_mono {q q' : Int} (h : q ≤ q') : (reading q).micros ≤ (reading q').micros := by
  have hpos := (reading q').unit.micros_pos
  rcases reading_unit h with hsame | ⟨hunit, hfew⟩
  · rw [Reading.micros, Reading.micros, (reading_count q).1, (reading_count q').1, hsame]
    exact Int.mul_le_mul_of_nonneg_right (Int.ediv_le_ediv hpos h)
      (Int.le_of_lt hpos)
  -- the shorter time is less than six of the unit of the longer one
  · have hless : q < 6 * (reading q').unit.micros :=
      (Int.ediv_lt_iff_lt_mul hpos).mp (Int.lt_add_one_of_le hfew)
    have hmany : 6 * (reading q').unit.micros ≤ (reading q').micros :=
      Int.mul_le_mul_of_nonneg_right ((reading_count q').2 hunit) (Int.le_of_lt hpos)
    exact Int.le_trans (Int.le_trans (reading_floor q).1 (Int.le_of_lt hless)) hmany

/-! ## What `Stream` writes -/

variable {perMicro}

/-- Casting to a unit rounds the whole microseconds down once more. -/
theorem durationCast_eq {duration : Int} (h : 0 ≤ duration) (micros : Int) :
    durationCast perMicro micros duration = duration / perMicro / micros := by
  rw [durationCast, Int.tdiv_eq_ediv_of_nonneg h, Int.mul_comm,
    Int.ediv_ediv_of_nonneg (Int.natCast_nonneg perMicro)]

/-- A number in front of a text. -/
theorem putReading {o : Ostream} (h : o.Plain) (r : Reading) :
    (o.putInt r.count).putString r.unit.name.toList = { o with text := o.text ++ r.text } := by
  have hnumber : o.putInt r.count = { o with text := o.text ++ zeroFilled 0 r.count } := by
    have hflags := h.flags
    have hwidth := h.width
    obtain ⟨text, flags, fill, width⟩ := o
    dsimp only at hflags hwidth
    subst hflags hwidth
    by_cases hneg : r.count < 0
    · simp [Ostream.putInt, Ostream.insert, Ostream.padded, Ostream.digits, zeroFilled, hneg]
    · simp [Ostream.putInt, Ostream.insert, Ostream.padded, Ostream.digits, zeroFilled, hneg]
  have hplain : (o.putInt r.count).Plain := by
    rw [hnumber]
    exact h.of_eq rfl rfl
  rw [hplain.putString, hnumber]
  simp [Reading.text]

/-- **What `Stream` writes** on a plain stream is the reading of the whole microseconds. -/
theorem stream_eq {o : Ostream} (h : o.Plain) (t : Timer) {now : Int} (hd : 0 ≤ t.duration now) :
    t.stream perMicro now o =
      { o with text := o.text ++ (reading (t.duration now / perMicro)).text } := by
  unfold Timer.stream
  dsimp only
  rw [durationCast_eq hd, durationCast_eq hd, durationCast_eq hd, durationCast_eq hd, Int.ediv_one,
    ← putReading h]
  unfold reading
  split
  · rfl
  split
  · rfl
  split
  · rfl
  · rfl

/-! ## All that one timer shows -/

/-- What is done with a timer. -/
inductive TimerOp
  | stop
  | stream

/-- A timer, the clock, and what has been shown, each time with what had passed. -/
structure Timing where
  timer : Timer
  now : Int
  shown : List (Int × List Char) := []

/-- Time passes until `at`, and something is done. -/
def Timing.step (perMicro : Nat) (s : Timing) (label : Int × TimerOp) : Timing :=
  match label.2 with
  | .stop => { s with now := label.1, timer := s.timer.stop label.1 }
  | .stream =>
    let text := (s.timer.stream perMicro label.1 {}).text
    { s with now := label.1, shown := s.shown ++ [(s.timer.duration label.1, text)] }

/-- A timer from its construction on. -/
def timing (perMicro : Nat) : Lts Timing (Int × TimerOp) where
  init s := ∃ now, s = ⟨Timer.new now, now, []⟩
  next s label := some (s.step perMicro label)

/-- The clock does not go back. -/
def Forward (s : Timing) (label : Int × TimerOp) : Prop := s.now ≤ label.1

instance (s : Timing) (label : Int × TimerOp) : Decidable (Forward s label) :=
  inferInstanceAs (Decidable (s.now ≤ label.1))

variable {t : Timer} {now now' : Int} {s s' : Timing} {label : Int × TimerOp}

/-- A timer that has been stopped was stopped in the past. -/
def Timer.Past (t : Timer) (now : Int) : Prop := t.isRunning = false → t.end_ ≤ now

/-- While time passes, the duration does not go back. -/
theorem Timer.duration_mono (h : now ≤ now') : t.duration now ≤ t.duration now' := by
  unfold Timer.duration
  split
  · omega
  · omega

/-- Stopping the timer, once or again, does not put it back. -/
theorem Timer.duration_stop (hpast : t.Past now) (h : now ≤ now') :
    t.duration now ≤ (t.stop now').duration now' := by
  have hstopped : (t.stop now').duration now' = now' - t.start := rfl
  rw [hstopped]
  unfold Timer.duration
  by_cases hrunning : t.isRunning = true
  · rw [if_pos hrunning]
    omega
  · have hend := hpast (Bool.eq_false_iff.mpr hrunning)
    rw [if_neg hrunning]
    omega

/-- What has been shown so far, against what has passed now. -/
structure Timing.Steady (perMicro : Nat) (s : Timing) : Prop where
  started : 0 ≤ s.timer.duration s.now
  past : s.timer.Past s.now
  before : ∀ shown ∈ s.shown, shown.1 ≤ s.timer.duration s.now
  sorted : (s.shown.map Prod.fst).Pairwise (· ≤ ·)
  texts : ∀ shown ∈ s.shown, shown.2 = (reading (shown.1 / perMicro)).text

/-- One step keeps it. -/
theorem Timing.Steady.step (h : s.Steady perMicro) (hforward : Forward s label) :
    (s.step perMicro label).Steady perMicro := by
  obtain ⟨now', op⟩ := label
  have hforward : s.now ≤ now' := hforward
  cases op with
  | stop =>
    have hstop := Timer.duration_stop h.past hforward
    exact ⟨Int.le_trans h.started hstop, fun _ => Int.le_refl now',
      fun shown hshown => Int.le_trans (h.before shown hshown) hstop, h.sorted, h.texts⟩
  | stream =>
    -- what is shown now is not before anything shown already
    have hlater : s.timer.duration s.now ≤ s.timer.duration now' := Timer.duration_mono hforward
    have hstarted := Int.le_trans h.started hlater
    have hplain : ({} : Ostream).Plain := ⟨rfl, rfl⟩
    refine ⟨hstarted, fun hstopped => Int.le_trans (h.past hstopped) hforward, ?_, ?_, ?_⟩
    · intro shown hshown
      rcases List.mem_append.mp hshown with hold | hnew
      · exact Int.le_trans (h.before shown hold) hlater
      · rw [List.mem_singleton.mp hnew]
        exact Int.le_refl _
    · show ((s.shown ++ [_]).map Prod.fst).Pairwise (· ≤ ·)
      rw [List.map_append, List.pairwise_append]
      refine ⟨h.sorted, List.pairwise_singleton _ _, ?_⟩
      intro d hd d' hd'
      obtain ⟨shown, hshown, rfl⟩ := List.mem_map.mp hd
      rw [List.map_singleton, List.mem_singleton] at hd'
      rw [hd']
      exact Int.le_trans (h.before shown hshown) hlater
    · intro shown hshown
      rcases List.mem_append.mp hshown with hold | hnew
      · exact h.texts shown hold
      · rw [List.mem_singleton.mp hnew]
        exact congrArg Ostream.text (stream_eq hplain s.timer hstarted)

theorem reach_steady (h : (timing perMicro).Reach Forward s) : s.Steady perMicro := by
  refine h.invariant ?_ ?_
  · rintro s ⟨now, rfl⟩
    have hzero : (Timer.new now).duration now = now - now := rfl
    refine ⟨?_, fun hstopped => absurd hstopped (by simp [Timer.new]),
      fun _ hnone => absurd hnone List.not_mem_nil, List.Pairwise.nil,
      fun _ hnone => absurd hnone List.not_mem_nil⟩
    show 0 ≤ (Timer.new now).duration now
    omega
  · intro s label s' _ hforward hnext hsteady
    obtain rfl : s.step perMicro label = s' := Option.some.inj hnext
    exact hsteady.step hforward

/-- What a reading says of a duration: it is less than a unit behind, and a unit is less
than a sixth of it, unless it is a microsecond. -/
structure Reading.Tells (perMicro : Nat) (r : Reading) (duration : Int) : Prop where
  floor : r.micros * perMicro ≤ duration
  near : duration < (r.micros + r.unit.micros) * perMicro
  unit : r.unit ≠ .microseconds → 6 * r.unit.micros ≤ r.micros

theorem tells_reading (hpos : 0 < perMicro) (duration : Int) :
    (reading (duration / perMicro)).Tells perMicro duration := by
  obtain ⟨hfloor, hnear⟩ := reading_floor (duration / perMicro)
  have hticks : (0 : Int) < perMicro := Int.natCast_pos.mpr hpos
  refine ⟨?_, ?_, fun hne => ?_⟩
  · exact (Int.le_ediv_iff_mul_le hticks).mp hfloor
  · exact (Int.ediv_lt_iff_lt_mul hticks).mp hnear
  · have hcount : 6 ≤ (reading (duration / perMicro)).count := (reading_count _).2 hne
    exact Int.mul_le_mul_of_nonneg_right hcount (Int.le_of_lt (TimeUnit.micros_pos _))

/-- **A timer never goes back.** Whatever is done with a timer, and however often it is
stopped: each text it shows is a number of units, rounded down from what has
passed by less than one of them, and there are six or more of them unless
they are microseconds; and no text stands for less time than one shown
before, although the units change. -/
theorem timer_never_goes_back (hpos : 0 < perMicro) (h : (timing perMicro).Reach Forward s) :
    ∃ rs : List Reading, s.shown.map Prod.snd = rs.map Reading.text ∧
      rs.Pairwise (fun r r' => r.micros ≤ r'.micros) ∧
      List.Forall₂ (fun shown r => r.Tells perMicro shown.1) s.shown rs := by
  have hsteady := reach_steady h
  have hsorted := hsteady.sorted
  refine ⟨s.shown.map fun shown => reading (shown.1 / perMicro), ?_, ?_, ?_⟩
  · rw [List.map_map]
    exact List.map_congr_left hsteady.texts
  · rw [List.pairwise_map] at hsorted ⊢
    exact hsorted.imp fun hle => reading_mono (Int.ediv_le_ediv (Int.natCast_pos.mpr hpos) hle)
  · rw [List.forall₂_map_right_iff, List.forall₂_same]
    exact fun shown _ => tells_reading hpos shown.1

/-- A timer is shown after 5999 and after 6000 microseconds, and once more when it has
been stopped. -/
theorem timer_never_goes_back_three : ∃ (s : Timing) (rs : List Reading),
    (timing 1000).Reach Forward s ∧ s.shown.map Prod.snd = rs.map Reading.text ∧
    s.shown.map Prod.snd = ["5999 microseconds".toList, "6 milliseconds".toList,
      "7 milliseconds".toList] ∧ rs.Pairwise (fun r r' => r.micros ≤ r'.micros) := by
  have hrun : ∃ s, (timing 1000).guardedRun Forward ⟨Timer.new 0, 0, []⟩
      [(5999000, .stream), (6000000, .stream), (7500000, .stop), (9000000, .stream)] = some s ∧
      s.shown.map Prod.snd = ["5999 microseconds".toList, "6 milliseconds".toList,
        "7 milliseconds".toList] := ⟨_, rfl, by decide⟩
  obtain ⟨s, hs, hshown⟩ := hrun
  have hstart : (timing 1000).Reach Forward ⟨Timer.new 0, 0, []⟩ := .start ⟨0, rfl⟩
  have hreach := Lts.reach_of_guardedRun hstart hs
  obtain ⟨rs, htexts, hsorted, -⟩ := timer_never_goes_back (by decide) hreach
  exact ⟨s, rs, hreach, htexts, hshown, hsorted⟩

end Warlib.Logging
