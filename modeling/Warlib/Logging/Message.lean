import Warlib.Logging.Records

/-!
# Byte by byte

What each byte of a message adds to the output of `WriteMessage`. The comment
in `WarLog.h` promises three things: carriage returns are ignored, control
characters that are not white space become a percent sign and two hexadecimal
digits, and newlines begin a new line.

`writeChar` is one round of the loop, and `arrive` the stream when the loop
has come to a place in the message. Both promises are about this loop, and both
have a gap. The test for a newline at the end of the message looks at the next
byte, and that may be a carriage return (`carriage_returns_ignored`). And the
digits are those of `(unsigned int)c`: a byte from 128 on is a negative `char`,
and becomes a number of eight digits (`control_characters_escaped`).
-/

namespace Warlib.Logging

open Warlib.Machine

variable (env : Surroundings) {out : Ostream}

/-! ## One round of the loop -/

/-- One round of the loop of `WriteMessage`: the byte at `ch` is `c`, and `rest` is
behind it. -/
def writeChar (out : Ostream) (c : Char) (rest : List Char) : Ostream :=
  if c = '\r' then out
  else if c = '\n' then if rest = [] then out else out.endl.putString "  ".toList
  else if env.iscntrl c && !env.isspace c then
    let saved := out.flags
    let out := (((out.putChar '%').setw 2).setfill '0').hex
    (out.putUnsigned (toUnsigned c)).setFlags saved
  else out.putChar c

/-- The loop goes round by round. -/
theorem writeChars_cons (out : Ostream) (c : Char) (rest : List Char) :
    writeChars env out (c :: rest) = writeChars env (writeChar env out c rest) rest := by
  rw [writeChars]
  unfold writeChar
  split
  · rfl
  split
  · split
    next hlast =>
      rw [hlast]
      rfl
    next => rfl
  split <;> rfl

/-- The stream when the loop has written `pre` and comes to `rest`. -/
def arrive (out : Ostream) : List Char → List Char → Ostream
  | [], _ => out
  | c :: pre, rest => arrive (writeChar env out c (pre ++ rest)) pre rest

theorem writeChars_arrive (out : Ostream) (pre rest : List Char) :
    writeChars env out (pre ++ rest) = writeChars env (arrive env out pre rest) rest := by
  induction pre generalizing out with
  | nil => rfl
  | cons c pre ih =>
    rw [List.cons_append, writeChars_cons, ih]
    rfl

/-- At the end of the message the loop is done. -/
theorem writeMessage_arrive (out : Ostream) (si : SubmitInfo) :
    writeMessage env out si = arrive env out si.buf.toList [] := by
  have hend := writeChars_arrive env out si.buf.toList []
  rw [List.append_nil] at hend
  exact hend

theorem arrive_append (out : Ostream) (pre : List Char) (c : Char) (rest : List Char) :
    arrive env out (pre ++ [c]) rest = writeChar env (arrive env out pre (c :: rest)) c rest := by
  induction pre generalizing out with
  | nil => rfl
  | cons d pre ih =>
    rw [List.cons_append, arrive, ih, List.append_assoc]
    rfl

/-! ## Carriage returns -/

/-- The message with every carriage return removed. -/
def withoutReturns (buf : String) : String := String.ofList (buf.toList.filter fun c => c ≠ '\r')

/-- A newline, and behind it nothing but carriage returns, one at least. -/
def NewlineThenReturns (cs : List Char) : Prop :=
  ∃ pre k, cs = pre ++ '\n' :: List.replicate (k + 1) '\r'

theorem NewlineThenReturns.cons {cs : List Char} (h : NewlineThenReturns cs) (c : Char) :
    NewlineThenReturns (c :: cs) := by
  obtain ⟨pre, k, rfl⟩ := h
  exact ⟨c :: pre, k, rfl⟩

/-- A message without other bytes is made of carriage returns. -/
theorem replicate_of_filter {cs : List Char} (h : (cs.filter fun c => c ≠ '\r') = []) :
    cs = List.replicate cs.length '\r' := by
  refine List.eq_replicate_iff.mpr ⟨rfl, fun c hc => ?_⟩
  have hnot := List.filter_eq_nil_iff.mp h c hc
  simpa using hnot

/-- A newline at the end of the message is at its end without the carriage returns,
unless these are what is behind it. -/
theorem writeChars_filter (cs : List Char) (h : ¬NewlineThenReturns cs) (out : Ostream) :
    writeChars env out (cs.filter fun c => c ≠ '\r') = writeChars env out cs := by
  induction cs generalizing out with
  | nil => rfl
  | cons c rest ih =>
    have hrest : ¬NewlineThenReturns rest := fun hrest => h (hrest.cons c)
    by_cases hreturn : c = '\r'
    · rw [List.filter_cons_of_neg (by simpa using hreturn), ih hrest, writeChars_cons]
      rw [writeChar, if_pos hreturn]
    · rw [List.filter_cons_of_pos (by simpa using hreturn), writeChars_cons, writeChars_cons,
        ih hrest]
      -- the round looks at what is behind a newline, to see whether there is anything
      have hround : writeChar env out c (rest.filter fun c => c ≠ '\r') =
          writeChar env out c rest := by
        unfold writeChar
        by_cases hc : c = '\n'
        · have hsame : (rest.filter fun c => c ≠ '\r') = [] ↔ rest = [] := by
            constructor
            · intro hnone
              by_contra hne
              have hlength : 0 < rest.length := List.length_pos_iff.mpr hne
              refine h ⟨[], rest.length - 1, ?_⟩
              rw [hc, Nat.sub_add_cancel hlength, ← replicate_of_filter hnone]
              rfl
            · rintro rfl
              rfl
          simp only [hc, hsame]
        · simp only [if_neg hc]
      rw [hround]

/-- The loop passes over carriage returns. -/
theorem writeChars_returns (out : Ostream) (k : Nat) :
    writeChars env out (List.replicate k '\r') = out := by
  induction k with
  | zero => rfl
  | succ k ih =>
    rw [List.replicate_succ, writeChars_cons]
    exact ih

/-- Behind a newline at the end, carriage returns make it one in the middle. -/
theorem writeChars_newline_returns (pre : List Char) (k : Nat) (out : Ostream) :
    writeChars env out (pre ++ '\n' :: List.replicate (k + 1) '\r') =
      (writeChars env out (pre ++ ['\n'])).endl.putString "  ".toList := by
  induction pre generalizing out with
  | nil =>
    rw [List.nil_append, writeChars_cons]
    exact writeChars_returns env _ (k + 1)
  | cons c pre ih =>
    have hround : writeChar env out c (pre ++ '\n' :: List.replicate (k + 1) '\r') =
        writeChar env out c (pre ++ ['\n']) := by
      unfold writeChar
      simp
    rw [List.cons_append, List.cons_append, writeChars_cons, writeChars_cons, hround, ih]

/-- A new line is text. -/
theorem endl_putString_text (out : Ostream) (s : List Char) :
    (out.endl.putString s).text ≠ out.text := by
  intro h
  have hlength := congrArg List.length h
  have htext : (out.endl.putString s).text = (out.text ++ ['\n']) ++ out.endl.padded [] s := rfl
  rw [htext, List.length_append, List.length_append, List.length_singleton] at hlength
  omega

/-- **Carriage returns.** `WriteMessage` writes the same text for a message as for
the message without its carriage returns, if and only if the message does not
end in a newline followed by carriage returns. -/
theorem carriage_returns_ignored (env : Surroundings) (out : Ostream) (si : SubmitInfo) :
    (writeMessage env out { si with buf := withoutReturns si.buf }).text =
        (writeMessage env out si).text ↔ ¬NewlineThenReturns si.buf.toList := by
  have hbuf : (withoutReturns si.buf).toList = si.buf.toList.filter fun c => c ≠ '\r' :=
    String.toList_ofList
  unfold writeMessage
  dsimp only
  rw [hbuf]
  constructor
  · rintro htext ⟨pre, k, hend⟩
    have hnot : ¬NewlineThenReturns (pre ++ ['\n']) := by
      rintro ⟨pre', k', h⟩
      have hlast := congrArg List.getLast? h
      rw [List.replicate_succ', ← List.cons_append, ← List.append_assoc, List.getLast?_concat,
        List.getLast?_concat] at hlast
      exact absurd hlast (by decide)
    have hfilter : ((pre ++ '\n' :: List.replicate (k + 1) '\r').filter fun c => c ≠ '\r') =
        (pre ++ ['\n']).filter fun c => c ≠ '\r' := by
      simp
    rw [hend, hfilter, writeChars_filter env _ hnot, writeChars_newline_returns] at htext
    exact endl_putString_text _ _ htext.symm
  · intro h
    rw [writeChars_filter env _ h]

/-- A newline and a carriage return at the end: the message gets a second line,
without the carriage return it does not. -/
theorem carriage_return_at_the_end :
    (writeMessage dayOne {} ⟨.info, 1, withoutReturns "a\n\r", 0⟩).text = "a".toList ∧
      (writeMessage dayOne {} ⟨.info, 1, "a\n\r", 0⟩).text ≠ "a".toList := by
  decide

/-! ## Control characters -/

/-- What the locale calls a control character and not white space. -/
def controls (env : Surroundings) (c : Char) : Bool := env.iscntrl c && !env.isspace c

/-- A percent sign and the two hexadecimal digits of a byte. -/
def escape (c : Char) : List Char :=
  ['%', Nat.digitChar (c.toNat / 16), Nat.digitChar (c.toNat % 16)]

/-- A small number is two digits. -/
theorem hexField_small {n : Nat} (h : n < 128) :
    hexField n = [Nat.digitChar (n / 16), Nat.digitChar (n % 16)] := by
  unfold hexField
  by_cases hone : n < 16
  · have hhigh : n / 16 = 0 := by omega
    have hlow : n % 16 = n := by omega
    rw [Nat.toDigits_of_lt_base hone, hhigh, hlow]
    rfl
  · have hhigh : n / 16 < 16 := by omega
    rw [Nat.toDigits_of_base_le (by decide) (by omega), Nat.toDigits_of_lt_base hhigh]
    rfl

/-- A number over a byte is more. -/
theorem hexField_large {n : Nat} (h : 256 ≤ n) : 2 < (hexField n).length := by
  have hdigits : ¬(Nat.toDigits 16 n).length ≤ 2 := by
    rw [Nat.length_toDigits_le_iff (by decide) (by decide)]
    omega
  unfold hexField
  rw [List.length_append]
  omega

/-- What one round writes on a plain stream. -/
def written (env : Surroundings) (c : Char) (rest : List Char) : List Char :=
  if c = '\r' then []
  else if c = '\n' then if rest = [] then [] else '\n' :: "  ".toList
  else if controls env c then '%' :: hexField (toUnsigned c)
  else [c]

theorem writeChar_plain (h : out.Plain) (c : Char) (rest : List Char) :
    (writeChar env out c rest).Plain ∧
      (writeChar env out c rest).text = out.text ++ written env c rest := by
  unfold writeChar written
  split
  · exact ⟨h, (List.append_nil _).symm⟩
  split
  · split
    · exact ⟨h, (List.append_nil _).symm⟩
    · have hline : out.endl.Plain := h.of_eq rfl rfl
      rw [hline.putString]
      refine ⟨hline.of_eq rfl rfl, ?_⟩
      show (out.text ++ ['\n']) ++ _ = out.text ++ ('\n' :: _)
      rw [List.append_assoc]
      rfl
  by_cases hc : controls env c = true
  · have hc' : (env.iscntrl c && !env.isspace c) = true := hc
    have hsign := h.putChar '%'
    have hplain : (out.putChar '%').Plain := by
      rw [hsign]
      exact h.of_eq rfl rfl
    have hflags : (out.putChar '%').flags = out.flags := by rw [hsign]
    have hhex := putHex_eq hplain (toUnsigned c)
    rw [hflags] at hhex
    rw [if_pos hc, if_pos hc']
    dsimp only
    rw [hhex]
    refine ⟨hplain.of_eq rfl rfl, ?_⟩
    show (out.putChar '%').text ++ _ = _
    rw [hsign]
    show (out.text ++ ['%']) ++ _ = _
    rw [List.append_assoc]
    rfl
  · have hc' : ¬(env.iscntrl c && !env.isspace c) = true := hc
    rw [if_neg hc, if_neg hc', h.putChar]
    exact ⟨h.of_eq rfl rfl, rfl⟩

/-- The stream stays plain. -/
theorem arrive_plain (h : out.Plain) (pre rest : List Char) : (arrive env out pre rest).Plain := by
  induction pre generalizing out with
  | nil => exact h
  | cons c pre ih => exact ih (writeChar_plain env h c (pre ++ rest)).1

/-- The byte between `pre` and `rest` adds `w` to the output. -/
def Contributes (env : Surroundings) (out : Ostream) (pre : List Char) (c : Char)
    (rest w : List Char) : Prop :=
  (arrive env out (pre ++ [c]) rest).text = (arrive env out pre (c :: rest)).text ++ w

theorem contributes_iff (h : out.Plain) (pre : List Char) (c : Char) (rest w : List Char) :
    Contributes env out pre c rest w ↔ written env c rest = w := by
  unfold Contributes
  rw [arrive_append, (writeChar_plain env (arrive_plain env h pre (c :: rest)) c rest).2]
  exact List.append_right_inj _

/-- Control characters are escaped, wherever they are, and every other byte but a
carriage return and a newline is copied. -/
def Escaped (env : Surroundings) (out : Ostream) (cs : List Char) : Prop :=
  ∀ pre c rest, cs = pre ++ c :: rest →
    (controls env c = true → Contributes env out pre c rest (escape c)) ∧
    (controls env c = false → c ≠ '\r' → c ≠ '\n' → Contributes env out pre c rest [c])

/-- The escape is right for ASCII, save what the loop takes for the end of a line. -/
theorem written_eq_escape_iff {c : Char} (h : controls env c = true) (rest : List Char) :
    written env c rest = escape c ↔ c.toNat < 128 ∧ c ≠ '\r' ∧ c ≠ '\n' := by
  unfold written
  by_cases hreturn : c = '\r'
  · rw [if_pos hreturn]
    simp [escape, hreturn]
  rw [if_neg hreturn]
  by_cases hnewline : c = '\n'
  · rw [if_pos hnewline]
    refine iff_of_false (fun hsame => ?_) (fun hc => hc.2.2 hnewline)
    split at hsame
    · simp [escape] at hsame
    · simp [escape] at hsame
  rw [if_neg hnewline, if_pos h]
  unfold toUnsigned
  by_cases hascii : c.toNat < 128
  · rw [if_pos hascii, hexField_small hascii]
    exact iff_of_true rfl ⟨hascii, hreturn, hnewline⟩
  · rw [if_neg hascii]
    refine iff_of_false (fun hsame => ?_) (fun hc => hascii hc.1)
    have hlength := congrArg List.length hsame
    have hmore := hexField_large (n := 2 ^ 32 - 256 + c.toNat) (by omega)
    rw [List.length_cons] at hlength
    have hthree : (escape c).length = 3 := rfl
    omega

/-- **Control characters.** The output of `WriteMessage` is what its bytes add to it.
Every control character that is not white space adds a percent sign and its
two digits, and every other byte but a carriage return and a newline adds
itself, if and only if no byte from 128 on, no carriage return and no newline
is such a control character. -/
theorem control_characters_escaped (env : Surroundings) (hout : out.Plain) (si : SubmitInfo) :
    writeMessage env out si = arrive env out si.buf.toList [] ∧
      (Escaped env out si.buf.toList ↔ ∀ c ∈ si.buf.toList, controls env c = true →
        c.toNat < 128 ∧ c ≠ '\r' ∧ c ≠ '\n') := by
  refine ⟨writeMessage_arrive env out si, ?_⟩
  constructor
  · intro hescaped c hmem hc
    obtain ⟨pre, rest, hsplit⟩ := List.append_of_mem hmem
    have hwritten := (contributes_iff env hout pre c rest _).mp ((hescaped pre c rest hsplit).1 hc)
    exact (written_eq_escape_iff env hc rest).mp hwritten
  · intro hall pre c rest hsplit
    have hmem : c ∈ si.buf.toList := by
      rw [hsplit]
      exact List.mem_append_right _ List.mem_cons_self
    refine ⟨fun hc => ?_, fun hc hreturn hnewline => ?_⟩
    · rw [contributes_iff env hout, written_eq_escape_iff env hc]
      exact hall c hmem hc
    · rw [contributes_iff env hout, written, if_neg hreturn, if_neg hnewline, hc]
      rfl

/-- A locale in which the bytes from 128 to 159 are control characters, too. -/
def latinOne : Surroundings where
  clock := dayOne.clock
  localtime := firstDay
  iscntrl c := c.toNat < 32 || 127 ≤ c.toNat && c.toNat < 160
  isspace c := c.isWhitespace

/-- An escape sequence of a terminal, in that locale. -/
theorem control_characters_escaped_terminal :
    (writeMessage latinOne {} ⟨.info, 1, "\x1b[2J", 0⟩).text = "%1b[2J".toList ∧
      Escaped latinOne {} "\x1b[2J".toList := by
  refine ⟨by decide, (control_characters_escaped latinOne ⟨rfl, rfl⟩
    ⟨.info, 1, "\x1b[2J", 0⟩).2.mpr fun c hmem _ => ?_⟩
  have hc : c = '\x1b' ∨ c = '[' ∨ c = '2' ∨ c = 'J' := by simpa using hmem
  rcases hc with rfl | rfl | rfl | rfl
  · decide
  · decide
  · decide
  · decide

/-- The same with the one-byte form of the control sequence introducer: the byte has
two digits, and eight are written. -/
theorem control_character_of_eight_digits :
    (writeMessage latinOne {} ⟨.info, 1, "\x9b2J", 0⟩).text = "%ffffff9b2J".toList ∧
      ¬Escaped latinOne {} "\x9b2J".toList := by
  refine ⟨by decide, fun hescaped => ?_⟩
  have hfirst := (hescaped [] '\x9b' "2J".toList (by decide)).1 (by decide)
  exact absurd hfirst (by unfold Contributes; decide)

end Warlib.Logging
