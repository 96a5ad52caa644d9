import Warlib.Logging.Model
import Warlib.Machine.Calendar
import Warlib.Machine.Ostream

/-!
# `war::log` — what a handler writes

`WriteTimestamp`, `WriteMessage` and `WriteDefaulInfo` of `WarLog.cpp`, and
`Submit` of `LogToStream` and `LogToFile`, which is a call of the last one.

Mirroring notes:

* A `String` is a `std::string` with one `Char` for each byte; a `char` with
  the high bit set is negative, as on x86.
* The locale's classification, `localtime_r` and the text of a thread id are
  parameters. `localtime_r` is asked for a `time_t`; `war_localtime` is its
  branch for other systems than Windows.
* `system_clock` counts `perSecond` ticks a second, and `to_time_t` may cut
  off, round down or round to the nearest second.
* The fields of `std::tm` and the milliseconds are `int`s that do not overflow
  here; what is assigned to `my_tm` and `milliseconds` is read once.
* `LogToFile`'s stream starts empty: opening and truncating a file is not
  modelled.
-/

namespace Warlib.Logging

open Warlib.Machine

/-! ## Time -/

/-- How `to_time_t` makes whole seconds. -/
inductive Rounding
  | towardZero
  | down
  | nearest
  deriving DecidableEq, Repr

/-- `std::chrono::system_clock`. -/
structure SystemClock where
  perSecond : Nat
  rounding : Rounding
  positive : 0 < perSecond

/-- `system_clock::to_time_t`. -/
def SystemClock.toTimeT (c : SystemClock) (time : Int) : Int :=
  match c.rounding with
  | .towardZero => time.tdiv c.perSecond
  | .down => time / c.perSecond
  | .nearest => (2 * time + c.perSecond) / (2 * c.perSecond)

/-- `system_clock::from_time_t`. -/
def SystemClock.fromTimeT (c : SystemClock) (when' : Int) : Int := when' * c.perSecond

/-- `duration_cast` to milliseconds, which cuts off. -/
def SystemClock.toMilliseconds (c : SystemClock) (ticks : Int) : Int :=
  (ticks * 1000).tdiv c.perSecond

/-- The first part of `WriteTimestamp`: `when` and `milliseconds`. -/
def SystemClock.split (c : SystemClock) (time : Int) : Int × Int :=
  let when' := c.toTimeT time
  let whenRounded := c.fromTimeT when'
  if whenRounded > time then
    (when' - 1, c.toMilliseconds (time - (whenRounded - c.perSecond)))
  else (when', c.toMilliseconds (time - whenRounded))

/-- What the functions that write are given by their surroundings: the clock,
`localtime_r`, and the handler's locale. -/
structure Surroundings where
  clock : SystemClock
  localtime : Int → Option Tm
  iscntrl : Char → Bool
  isspace : Char → Bool

variable (env : Surroundings)

/-- `WriteTimestamp(out, si)`. -/
def writeTimestamp (out : Ostream) (si : SubmitInfo) : Ostream :=
  let (when', milliseconds) := env.clock.split si.time
  match env.localtime when' with
  | some tm =>
    let out := ((out.setfill '0').setw 4).putInt (tm.year + 1900)
    let out := ((out.putChar '-').setw 2).putInt (tm.mon + 1)
    let out := ((out.putChar '-').setw 2).putInt tm.mday
    let out := ((out.putChar ' ').setw 2).putInt tm.hour
    let out := ((out.putChar ':').setw 2).putInt tm.min
    (((out.putChar '.').setw 3).setfill '0').putInt milliseconds
  | none => out.putString "0000-00-00 00:00:00.000".toList

/-! ## The message -/

/-- `(unsigned int)c`, from a signed `char` of 8 bits. -/
def toUnsigned (c : Char) : Nat := if c.toNat < 128 then c.toNat else 2 ^ 32 - 256 + c.toNat

/-- The loop of `WriteMessage`; the list is what is left between `ch` and `end`. -/
def writeChars (out : Ostream) : List Char → Ostream
  | [] => out
  | c :: rest =>
    if c = '\r' then writeChars out rest
    else if c = '\n' then
      -- if (++ch == end) break; --ch;
      if rest = [] then out else writeChars (out.endl.putString "  ".toList) rest
    else if env.iscntrl c && !env.isspace c then
      let saved := out.flags
      let out := (((out.putChar '%').setw 2).setfill '0').hex
      writeChars ((out.putUnsigned (toUnsigned c)).setFlags saved) rest
    else writeChars (out.putChar c) rest

/-- `WriteMessage(out, si)`. -/
def writeMessage (out : Ostream) (si : SubmitInfo) : Ostream := writeChars env out si.buf.toList

/-! ## The record -/

/-- `WriteLevel(out, si)`. -/
def writeLevel (out : Ostream) (si : SubmitInfo) : Ostream :=
  out.putString (getLevelName si.level).toList

/-- `WriteFilter(out, si)`: `LA_GENERAL` is hidden. -/
def writeFilterOf (out : Ostream) (si : SubmitInfo) : Ostream :=
  out.putString (writeFilter si.filter LogAbout.general.bit).toList

/-- An event on its way to one handler, on the thread with this id. -/
structure Delivery where
  info : SubmitInfo
  threadId : List Char

/-- `WriteDefaulInfo(out, si)`. -/
def writeDefaulInfo (out : Ostream) (d : Delivery) : Ostream :=
  let out := writeTimestamp env out d.info
  let out := ((out.putChar ' ').putString d.threadId).putChar ' '
  let out := writeLevel out d.info
  let out := out.putString ": ".toList
  let out := writeFilterOf out d.info
  let out := writeMessage env out d.info
  out.endl

/-- `LogToStream::Submit(info)` and `LogToFile::Submit(info)`. -/
def submitTo (out : Ostream) (d : Delivery) : Ostream := writeDefaulInfo env out d

/-! ## The split into seconds and milliseconds -/

/-- What `WriteTimestamp` makes of the second that `to_time_t` has given it. -/
def SystemClock.correct (c : SystemClock) (time when' : Int) : Int × Int :=
  let whenRounded := c.fromTimeT when'
  if whenRounded > time then
    (when' - 1, c.toMilliseconds (time - (whenRounded - c.perSecond)))
  else (when', c.toMilliseconds (time - whenRounded))

/-- What the ways to round promise. An instant half-way between two seconds has two
nearest ones. -/
def SystemClock.Rounds (c : SystemClock) (time when' : Int) : Rounding → Prop
  | .towardZero => when' = time.tdiv c.perSecond
  | .down => when' = time / c.perSecond
  | .nearest => 2 * (time - c.fromTimeT when') ≤ c.perSecond ∧
      2 * (c.fromTimeT when' - time) ≤ c.perSecond

/-- `seconds` and `milliseconds` are the last whole second that is not after the
instant, and the whole milliseconds since. -/
structure SystemClock.Floors (c : SystemClock) (time seconds milliseconds : Int) : Prop where
  notAfter : c.fromTimeT seconds ≤ time
  last : ∀ s, c.fromTimeT s ≤ time → s ≤ seconds
  since : milliseconds * c.perSecond ≤ (time - c.fromTimeT seconds) * 1000 ∧
    (time - c.fromTimeT seconds) * 1000 < (milliseconds + 1) * c.perSecond
  digits : 0 ≤ milliseconds ∧ milliseconds ≤ 999

variable {c : SystemClock} {time when' : Int}

/-- `to_time_t` as the model has it keeps the promise of its way to round. -/
theorem SystemClock.toTimeT_rounds (c : SystemClock) (time : Int) :
    c.Rounds time (c.toTimeT time) c.rounding := by
  unfold SystemClock.toTimeT
  cases c.rounding with
  | towardZero => rfl
  | down => rfl
  | nearest =>
    have hpos : (0 : Int) < 2 * c.perSecond := by
      have := c.positive
      omega
    have hsplit := Int.mul_ediv_add_emod (2 * time + c.perSecond) (2 * c.perSecond)
    have hrest := Int.emod_nonneg (2 * time + c.perSecond) (Int.ne_of_gt hpos)
    have hrest' := Int.emod_lt_of_pos (2 * time + c.perSecond) hpos
    rw [Int.mul_comm, Int.mul_left_comm] at hsplit
    unfold SystemClock.Rounds SystemClock.fromTimeT
    dsimp only
    omega

/-- Each way to round stays within a second of the instant. -/
theorem SystemClock.Rounds.near {r : Rounding} (h : c.Rounds time when' r) :
    time - c.perSecond < c.fromTimeT when' ∧ c.fromTimeT when' < time + c.perSecond := by
  have hpos : (0 : Int) < c.perSecond := by exact_mod_cast c.positive
  cases r with
  | towardZero =>
    obtain rfl : when' = time.tdiv c.perSecond := h
    have hsplit := Int.mul_tdiv_add_tmod time c.perSecond
    have habove := Int.tmod_lt_of_pos time hpos
    have hbelow := Int.lt_tmod_of_pos time hpos
    rw [Int.mul_comm] at hsplit
    unfold SystemClock.fromTimeT
    omega
  | down =>
    obtain rfl : when' = time / c.perSecond := h
    have hsplit := Int.mul_ediv_add_emod time c.perSecond
    have hrest := Int.emod_nonneg time (Int.ne_of_gt hpos)
    have hrest' := Int.emod_lt_of_pos time hpos
    rw [Int.mul_comm] at hsplit
    unfold SystemClock.fromTimeT
    omega
  | nearest =>
    obtain ⟨hbefore, hafter⟩ := h
    omega

/-- A second that the instant is in is the last one, and the cast gives the
milliseconds. -/
theorem SystemClock.floors_of_second {second : Int} (hstart : c.fromTimeT second ≤ time)
    (hend : time < c.fromTimeT second + c.perSecond) :
    c.Floors time second (c.toMilliseconds (time - c.fromTimeT second)) := by
  have hpos : (0 : Int) < c.perSecond := by exact_mod_cast c.positive
  have hcast : c.toMilliseconds (time - c.fromTimeT second) =
      (time - c.fromTimeT second) * 1000 / c.perSecond := by
    rw [SystemClock.toMilliseconds, Int.tdiv_eq_ediv_of_nonneg (by omega)]
  refine ⟨hstart, fun s hs => ?_, ?_, ?_⟩
  · have hlater : s * c.perSecond < (second + 1) * c.perSecond := by
      unfold SystemClock.fromTimeT at hs hend
      rw [Int.add_mul, Int.one_mul]
      omega
    exact Int.lt_add_one_iff.mp (Int.lt_of_mul_lt_mul_right hlater (Int.le_of_lt hpos))
  · rw [hcast]
    exact ⟨Int.ediv_mul_le _ (Int.ne_of_gt hpos), Int.lt_ediv_add_one_mul_self _ hpos⟩
  · rw [hcast]
    have hthousand : (time - c.fromTimeT second) * 1000 / c.perSecond < 1000 :=
      Int.ediv_lt_of_lt_mul hpos (by omega)
    exact ⟨Int.ediv_nonneg (by omega) (by omega), by omega⟩

/-- However `to_time_t` has rounded, the correction makes it a floor. -/
theorem SystemClock.Rounds.floors {r : Rounding} (h : c.Rounds time when' r) :
    c.Floors time (c.correct time when').1 (c.correct time when').2 := by
  obtain ⟨hbelow, habove⟩ := h.near
  unfold SystemClock.correct
  by_cases hafter : c.fromTimeT when' > time
  · have hearlier : c.fromTimeT (when' - 1) = c.fromTimeT when' - c.perSecond := by
      rw [SystemClock.fromTimeT, Int.sub_mul, Int.one_mul]
      rfl
    have hfloors : c.Floors time (when' - 1)
        (c.toMilliseconds (time - c.fromTimeT (when' - 1))) := by
      apply SystemClock.floors_of_second
      · omega
      · omega
    rw [hearlier] at hfloors
    simp only [hafter, if_true]
    exact hfloors
  · simp only [hafter, if_false]
    exact c.floors_of_second (by omega) (by omega)

theorem SystemClock.floors_split (c : SystemClock) (time : Int) :
    c.Floors time (c.split time).1 (c.split time).2 := (c.toTimeT_rounds time).floors

/-- There is one such split. -/
theorem SystemClock.split_eq (c : SystemClock) (time : Int) :
    c.split time = (time / c.perSecond, time % c.perSecond * 1000 / c.perSecond) := by
  have hpos : (0 : Int) < c.perSecond := by exact_mod_cast c.positive
  have hfloors := c.floors_split time
  have hseconds : (c.split time).1 = time / c.perSecond := by
    apply Int.le_antisymm
    · exact Int.le_ediv_of_mul_le hpos hfloors.notAfter
    · exact hfloors.last _ (Int.ediv_mul_le time (Int.ne_of_gt hpos))
  have hrest : time - c.fromTimeT (time / c.perSecond) = time % c.perSecond := by
    rw [SystemClock.fromTimeT, Int.mul_comm, ← Int.emod_def]
  have hmilliseconds : time % c.perSecond * 1000 / c.perSecond = (c.split time).2 := by
    obtain ⟨hfrom, hto⟩ := hfloors.since
    rw [hseconds, hrest] at hfrom hto
    rw [Int.add_mul, Int.one_mul] at hto
    rw [Int.ediv_eq_iff_of_pos hpos]
    omega
  exact Prod.ext hseconds hmilliseconds.symm

/-- The milliseconds are a number below a thousand. -/
theorem SystemClock.milliseconds_bounds (c : SystemClock) (time : Int) :
    0 ≤ (c.split time).2 ∧ (c.split time).2 < 1000 := by
  obtain ⟨hnonneg, hle⟩ := (c.floors_split time).digits
  exact ⟨hnonneg, by omega⟩

/-- **The split is a floor.** However `to_time_t` rounds, the correction leaves in
`when` the last whole second that is not after the instant, and the milliseconds
are those since, a number of at most three digits. The seconds that are computed
on the way are all within a second of the instant, so nothing overflows but at
the very ends of what the clock can count. -/
theorem SystemClock.split_floors (c : SystemClock) (time : Int) :
    c.Floors time (c.split time).1 (c.split time).2 ∧
    ∀ r when', c.Rounds time when' r →
      c.Floors time (c.correct time when').1 (c.correct time when').2 ∧
      (time - c.perSecond < c.fromTimeT when' ∧ c.fromTimeT when' < time + c.perSecond) ∧
      (c.fromTimeT when' > time → time - c.perSecond < c.fromTimeT when' - c.perSecond) := by
  refine ⟨c.floors_split time, fun r when' hrounds => ⟨hrounds.floors, hrounds.near, ?_⟩⟩
  intro hafter
  omega

/-- A nanosecond before the epoch: the nearest second, 0, is after it. -/
theorem split_floors_before_epoch :
    let c : SystemClock := ⟨1000000000, .towardZero, by decide⟩
    c.correct (-1) 0 = (-1, 999) ∧ c.Floors (-1) (c.correct (-1) 0).1 (c.correct (-1) 0).2 := by
  intro c
  have hrounds : c.Rounds (-1) 0 .nearest := by
    show 2 * (-1 - c.fromTimeT 0) ≤ c.perSecond ∧ 2 * (c.fromTimeT 0 - -1) ≤ c.perSecond
    decide
  exact ⟨by decide, ((SystemClock.split_floors c (-1)).2 .nearest 0 hrounds).1⟩

end Warlib.Logging
