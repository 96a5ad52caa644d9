import Warlib.Logging.Message

/-!
# What is left on the stream

`LogToStream` writes to a stream that belongs to the application, and the
manipulators in `WriteTimestamp` and `WriteMessage` change its formatting state.
The width is used up by the next insertion, and the escape of a control character
puts the flags back. Nobody puts the fill character back: `submitTo_formatting`
says what one `Submit` leaves, `formatting_kept` when that is what was there.

A stream that does not accept output is not modelled.
-/

namespace Warlib.Logging

open Warlib.Machine

variable (env : Surroundings) {out : Ostream}

/-! ## One event -/

/-- `WriteMessage` escapes this byte. -/
def escapes (c : Char) : Bool := c ≠ '\r' && c ≠ '\n' && controls env c

/-- The time of the event is converted to local time, or a byte of its message is
escaped. -/
def FillsWithZeros (d : Delivery) : Prop :=
  (env.localtime (env.clock.second d.info.time)).isSome = true ∨
    ∃ c ∈ d.info.buf.toList, escapes env c = true

/-- The timestamp leaves the fill of its last field. -/
theorem writeTimestamp_formatting (out : Ostream) (si : SubmitInfo) :
    (writeTimestamp env out si).formatting =
      { out.formatting with
        fill := if (env.localtime (env.clock.second si.time)).isSome then '0' else out.fill,
        width := 0 } := by
  have hsecond : (env.clock.split si.time).1 = env.clock.second si.time := by
    rw [env.clock.split_eq]
    rfl
  unfold writeTimestamp
  dsimp only
  rw [hsecond]
  cases env.localtime (env.clock.second si.time) with
  | none => rfl
  | some tm => simp

/-- A round of the loop of `WriteMessage` leaves the fill of the escape, if it makes
one. -/
theorem writeChar_formatting (hwidth : out.width = 0) (c : Char) (rest : List Char) :
    (writeChar env out c rest).formatting =
      { out.formatting with fill := if escapes env c then '0' else out.fill } := by
  have hused : { out.formatting with width := 0 } = out.formatting := by
    rw [← hwidth]
    rfl
  unfold writeChar
  by_cases hreturn : c = '\r'
  · have hnot : escapes env c = false := by simp [escapes, hreturn]
    rw [if_pos hreturn, hnot]
    rfl
  rw [if_neg hreturn]
  by_cases hnewline : c = '\n'
  · have hnot : escapes env c = false := by simp [escapes, hnewline]
    rw [if_pos hnewline, hnot]
    split
    · rfl
    · exact hused
  rw [if_neg hnewline]
  have hescapes : escapes env c = (env.iscntrl c && !env.isspace c) := by
    simp [escapes, controls, hreturn, hnewline]
  rw [hescapes]
  split
  · -- the flags are what they were before the percent sign
    dsimp only
    simp only [Ostream.formatting_setFlags, Ostream.formatting_putUnsigned,
      Ostream.formatting_hex, Ostream.formatting_setfill, Ostream.formatting_setw,
      Ostream.formatting_putChar]
    rw [← hwidth]
    rfl
  · exact hused

/-- So does the whole loop. -/
theorem writeChars_formatting (hwidth : out.width = 0) (cs : List Char) :
    (writeChars env out cs).formatting =
      { out.formatting with fill := if cs.any (escapes env) then '0' else out.fill } := by
  induction cs generalizing out with
  | nil => rfl
  | cons c rest ih =>
    have hround := writeChar_formatting env hwidth c rest
    have hwidth' : (writeChar env out c rest).width = 0 := by
      have hfield := congrArg Ostream.Formatting.width hround
      exact hfield.trans hwidth
    have hfill' : (writeChar env out c rest).fill = if escapes env c then '0' else out.fill :=
      congrArg Ostream.Formatting.fill hround
    rw [writeChars_cons, ih hwidth', hround, hfill', List.any_cons]
    by_cases hc : escapes env c = true
    · simp [hc]
    · simp [hc]

/-- What `Submit` leaves: the flags, no width, and the fill or a zero. -/
theorem submitTo_formatting (d : Delivery) [Decidable (FillsWithZeros env d)] :
    (submitTo env out d).formatting =
      { out.formatting with
        fill := if FillsWithZeros env d then '0' else out.fill,
        width := 0 } := by
  let header := writeFilterOf ((writeLevel ((((writeTimestamp env out d.info).putChar ' ').putString
    d.threadId).putChar ' ') d.info).putString ": ".toList) d.info
  have hheader : header.formatting = (writeTimestamp env out d.info).formatting := by
    rw [writeTimestamp_formatting]
    show { (writeTimestamp env out d.info).formatting with width := 0 } = _
    rw [writeTimestamp_formatting]
  have hwidth : header.width = 0 := by
    have hfield := congrArg Ostream.Formatting.width hheader
    rw [writeTimestamp_formatting] at hfield
    exact hfield
  have hfill : header.fill = (writeTimestamp env out d.info).formatting.fill :=
    congrArg Ostream.Formatting.fill hheader
  show (writeChars env header d.info.buf.toList).formatting = _
  rw [writeChars_formatting env hwidth, hheader, hfill, writeTimestamp_formatting]
  have hany : d.info.buf.toList.any (escapes env) = true ↔
      ∃ c ∈ d.info.buf.toList, escapes env c = true := List.any_eq_true
  by_cases hescaped : d.info.buf.toList.any (escapes env) = true
  · have hzero : FillsWithZeros env d := Or.inr (hany.mp hescaped)
    simp [hescaped, hzero]
  · by_cases htime : (env.localtime (env.clock.second d.info.time)).isSome = true
    · have hzero : FillsWithZeros env d := Or.inl htime
      simp [hzero, htime]
    · have hnot : ¬FillsWithZeros env d := by
        rintro (h | h)
        · exact htime h
        · exact hescaped (hany.mpr h)
      simp [hescaped, htime, hnot]

/-! ## Any number of events -/

/-- The formatting is kept by an event exactly when the fill was a zero or the event
leaves none. -/
theorem submitTo_keeps_iff (hwidth : out.width = 0) (d : Delivery) :
    (submitTo env out d).formatting = out.formatting ↔ out.fill = '0' ∨ ¬FillsWithZeros env d := by
  classical
  have hused : { out.formatting with width := 0 } = out.formatting := by
    rw [← hwidth]
    rfl
  rw [submitTo_formatting]
  by_cases hzero : FillsWithZeros env d
  · rw [if_pos hzero]
    constructor
    · intro h
      exact Or.inl (congrArg Ostream.Formatting.fill h).symm
    · rintro (hfill | hnot)
      · rw [← hfill]
        exact hused
      · exact absurd hzero hnot
  · rw [if_neg hzero]
    exact iff_of_true hused (Or.inr hzero)

/-- Any number of events keep it that fill with zeros only where the stream did. -/
theorem foldl_submitTo_keeps (hwidth : out.width = 0) {ds : List Delivery}
    (h : out.fill = '0' ∨ ∀ d ∈ ds, ¬FillsWithZeros env d) :
    (ds.foldl (submitTo env) out).formatting = out.formatting := by
  induction ds generalizing out with
  | nil => rfl
  | cons d ds ih =>
    have hfirst : out.fill = '0' ∨ ¬FillsWithZeros env d := by
      rcases h with hzero | hnot
      · exact Or.inl hzero
      · exact Or.inr (hnot d List.mem_cons_self)
    have hkept := (submitTo_keeps_iff env hwidth d).mpr hfirst
    have hwidth' : (submitTo env out d).width = 0 :=
      (congrArg Ostream.Formatting.width hkept).trans hwidth
    rw [List.foldl_cons, ← hkept]
    refine ih hwidth' ?_
    rcases h with hzero | hnot
    · exact Or.inl ((congrArg Ostream.Formatting.fill hkept).trans hzero)
    · exact Or.inr fun d' hd' => hnot d' (List.mem_cons_of_mem _ hd')

/-- **The formatting of the stream.** For a stream without a width: after each of the
events its flags, fill and width are what they were before all of them, if and
only if it filled with zeros anyway, or no event is converted to local time or
escaped. -/
theorem formatting_kept (env : Surroundings) (hwidth : out.width = 0) (ds : List Delivery) :
    (∀ pre, pre <+: ds → (pre.foldl (submitTo env) out).formatting = out.formatting) ↔
      out.fill = '0' ∨ ∀ d ∈ ds, ¬FillsWithZeros env d := by
  constructor
  · intro hkept
    by_cases hfill : out.fill = '0'
    · exact Or.inl hfill
    refine Or.inr fun d hd => ?_
    obtain ⟨pre, post, rfl⟩ := List.append_of_mem hd
    have hbefore := hkept pre (List.prefix_append _ _)
    have hafter := hkept (pre ++ [d]) ⟨post, by simp⟩
    rw [List.foldl_append] at hafter
    have hwidth' : (pre.foldl (submitTo env) out).width = 0 :=
      (congrArg Ostream.Formatting.width hbefore).trans hwidth
    have hfill' : (pre.foldl (submitTo env) out).fill = out.fill :=
      congrArg Ostream.Formatting.fill hbefore
    rcases (submitTo_keeps_iff env hwidth' d).mp (hafter.trans hbefore.symm) with hzero | hnot
    · exact absurd (hfill'.symm.trans hzero) hfill
    · exact hnot
  · rintro h pre ⟨post, rfl⟩
    refine foldl_submitTo_keeps env hwidth ?_
    rcases h with hzero | hnot
    · exact Or.inl hzero
    · exact Or.inr fun d hd => hnot d (List.mem_append_left _ hd)

/-- An application starts, and reports on two lines why it stops. -/
def startAndStop : List Delivery :=
  [⟨⟨.info, 1, "started", 0⟩, ['7']⟩, ⟨⟨.error, 5, "no disk\nstopped", 90061⟩, ['8']⟩]

/-- A stream that fills with zeros anyway; and one as the application has it, where no
time is converted. Both are what they were after each of the events. -/
theorem formatting_kept_zeros :
    (∀ pre, pre <+: startAndStop →
      (pre.foldl (submitTo dayOne) { fill := '0' }).formatting =
        ({ fill := '0' } : Ostream).formatting) ∧
    ∀ pre, pre <+: startAndStop →
      (pre.foldl (submitTo { dayOne with localtime := fun _ => none }) {}).formatting =
        ({} : Ostream).formatting := by
  refine ⟨(formatting_kept dayOne rfl startAndStop).mpr (Or.inl rfl),
    (formatting_kept { dayOne with localtime := fun _ => none } rfl startAndStop).mpr
      (Or.inr ?_)⟩
  have hescaped : (startAndStop.flatMap fun d => d.info.buf.toList).any (escapes dayOne) =
      false := rfl
  rintro d hd (htime | ⟨c, hc, hzero⟩)
  · exact absurd htime (by simp)
  · exact List.any_eq_false.mp hescaped c (List.mem_flatMap.mpr ⟨d, hd, hc⟩) hzero

/-- The same on a stream as the application has it: its own number, in a field of
five, comes out with zeros after the event. -/
theorem formatting_not_kept :
    ((({} : Ostream).setw 5).putInt 42).text = "   42".toList ∧
    ¬(∀ pre, pre <+: [(⟨⟨.info, 1, "started", 0⟩, ['7']⟩ : Delivery)] →
      (pre.foldl (submitTo dayOne) {}).formatting = ({} : Ostream).formatting) ∧
    ((({ ([(⟨⟨.info, 1, "started", 0⟩, ['7']⟩ : Delivery)].foldl (submitTo dayOne) {}) with
      text := [] } : Ostream).setw 5).putInt 42).text = "00042".toList := by
  refine ⟨by decide, fun hall => ?_, by decide⟩
  have hone := hall _ (List.prefix_refl _)
  exact absurd (congrArg Ostream.Formatting.fill hone) (by decide)

end Warlib.Logging
