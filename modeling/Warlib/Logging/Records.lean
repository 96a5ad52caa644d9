import Warlib.Logging.Timestamp

/-!
# One event, one record

A log file is read line by line: a line that does not begin with two spaces
starts a record. The bytes of a message come from anywhere, and
`WriteMessage` is what keeps them from starting a record of their own: a
carriage return is dropped, a newline is followed by two spaces, other
control characters are written as hexadecimal.

`writeChars_eq` says what text the loop writes, and `messageText_split` what
its lines are: the rest of the line the message begins in, and lines with two
spaces in front, whatever the locale calls a control character. `submitTo_eq`
puts a record together, `foldl_submitTo_eq` all of them, and
`records_not_forged` is about the whole text.
-/

namespace Warlib.Logging

open Warlib.Machine

variable (env : Surroundings) {out : Ostream}

/-! ## The text of a message -/

/-- A number in hexadecimal, in a field of two characters. -/
def hexField (n : Nat) : List Char :=
  List.replicate (2 - (Nat.toDigits 16 n).length) '0' ++ Nat.toDigits 16 n

/-- What `WriteMessage` writes. -/
def messageText (env : Surroundings) : List Char → List Char
  | [] => []
  | c :: rest =>
    if c = '\r' then messageText env rest
    else if c = '\n' then if rest = [] then [] else '\n' :: ' ' :: ' ' :: messageText env rest
    else if env.iscntrl c && !env.isspace c then
      '%' :: hexField (toUnsigned c) ++ messageText env rest
    else c :: messageText env rest

/-- The escape puts the flags back. -/
theorem putHex_eq (h : out.Plain) (n : Nat) :
    (((out.setw 2).setfill '0').hex.putUnsigned n).setFlags out.flags =
      { out with text := out.text ++ hexField n, fill := '0' } := by
  have hflags := h.flags
  have hwidth := h.width
  obtain ⟨text, flags, fill, width⟩ := out
  dsimp only at hflags hwidth
  subst hflags hwidth
  simp [Ostream.putUnsigned, Ostream.insert, Ostream.padded, Ostream.digits, Ostream.baseMark,
    Ostream.setw, Ostream.setfill, Ostream.hex, Ostream.setFlags, hexField]

/-- A plain stream gets the text, and is plain afterwards. -/
theorem writeChars_eq (h : out.Plain) (cs text : List Char) (fill : Char) :
    ∃ fill', writeChars env { out with text, fill } cs =
      { out with text := text ++ messageText env cs, fill := fill' } := by
  have hplain : ∀ text fill, ({ out with text, fill } : Ostream).Plain := fun text fill =>
    h.of_eq rfl rfl
  have hchar : ∀ text fill c, ({ out with text, fill } : Ostream).putChar c =
      { out with text := text ++ [c], fill } := fun text fill c => (hplain text fill).putChar c
  induction cs generalizing text fill with
  | nil => exact ⟨fill, by simp [writeChars, messageText]⟩
  | cons c rest ih =>
    unfold writeChars messageText
    by_cases hreturn : c = '\r'
    · rw [if_pos hreturn, if_pos hreturn]
      exact ih text fill
    rw [if_neg hreturn, if_neg hreturn]
    by_cases hnewline : c = '\n'
    · rw [if_pos hnewline, if_pos hnewline]
      by_cases hlast : rest = []
      · rw [if_pos hlast, if_pos hlast]
        exact ⟨fill, by rw [List.append_nil]⟩
      rw [if_neg hlast, if_neg hlast]
      obtain ⟨fill', hrest⟩ := ih (text ++ ['\n'] ++ [' ', ' ']) fill
      have hspaces : ({ out with text, fill } : Ostream).endl.putString "  ".toList =
          { out with text := text ++ ['\n'] ++ [' ', ' '], fill } :=
        (hplain (text ++ ['\n']) fill).putString _
      refine ⟨fill', ?_⟩
      rw [hspaces, hrest]
      simp
    rw [if_neg hnewline, if_neg hnewline]
    by_cases hcontrol : (env.iscntrl c && !env.isspace c) = true
    · rw [if_pos hcontrol, if_pos hcontrol]
      obtain ⟨fill', hrest⟩ := ih (text ++ ['%'] ++ hexField (toUnsigned c)) '0'
      have hhex := putHex_eq (hplain (text ++ ['%']) fill) (toUnsigned c)
      refine ⟨fill', ?_⟩
      dsimp only at hhex ⊢
      rw [hchar, hhex, hrest]
      simp
    · rw [if_neg hcontrol, if_neg hcontrol, hchar]
      obtain ⟨fill', hrest⟩ := ih (text ++ [c]) fill
      refine ⟨fill', ?_⟩
      rw [hrest]
      simp

/-! ## Its lines -/

/-- The line begins like one that continues a record. -/
def Continues (line : List Char) : Prop := [' ', ' '] <+: line

instance (line : List Char) : Decidable (Continues line) := inferInstanceAs (Decidable (_ <+: _))

theorem continues_cons (line : List Char) : Continues (' ' :: ' ' :: line) := ⟨line, rfl⟩

/-- What has no newline belongs to the first line. -/
theorem splitOn_append {s : List Char} (hs : '\n' ∉ s) (t : List Char) :
    (s ++ t).splitOn '\n' = (t.splitOn '\n').modifyHead (s ++ ·) := by
  induction s with
  | nil =>
    cases hsplit : t.splitOn '\n' with
    | nil => exact absurd hsplit (List.splitOn_ne_nil _ _)
    | cons first rest => simp [hsplit]
  | cons c s ih =>
    rw [List.mem_cons, not_or] at hs
    obtain ⟨hc, hs⟩ := hs
    rw [List.cons_append, List.splitOn_cons_eq_if_modifyHead, if_neg (by simpa using Ne.symm hc),
      ih hs, List.modifyHead_modifyHead]
    rfl

/-- A digit is not a newline. -/
theorem digitChar_ne_newline : ∀ d < 16, '\n' ≠ Nat.digitChar d := by
  decide

theorem newline_not_mem_hexField (n : Nat) : '\n' ∉ hexField n := by
  have hdigits : '\n' ∉ Nat.toDigits 16 n := by
    induction n using Nat.strongRecOn with
    | ind n ih =>
      by_cases hsmall : n < 16
      · rw [Nat.toDigits_of_lt_base hsmall, List.mem_singleton]
        exact digitChar_ne_newline n hsmall
      · rw [Nat.toDigits_of_base_le (by decide) (Nat.le_of_not_lt hsmall), List.mem_append,
          List.mem_singleton]
        exact not_or.mpr ⟨ih (n / 16) (by omega),
          digitChar_ne_newline _ (Nat.mod_lt n (by decide))⟩
  intro hmem
  rcases List.mem_append.mp hmem with hmem | hmem
  · exact absurd (List.mem_replicate.mp hmem).2 (by decide)
  · exact hdigits hmem

/-- **The lines of a message.** All but the first have two spaces in front. -/
theorem messageText_split (cs : List Char) :
    ∃ first rest, (messageText env cs).splitOn '\n' = first :: rest ∧
      ∀ line ∈ rest, Continues line := by
  induction cs with
  | nil => exact ⟨[], [], List.splitOn_nil _, fun _ h => absurd h List.not_mem_nil⟩
  | cons c cs ih =>
    obtain ⟨first, rest, hsplit, hrest⟩ := ih
    unfold messageText
    split
    · exact ⟨first, rest, hsplit, hrest⟩
    split
    · split
      · exact ⟨[], [], List.splitOn_nil _, fun _ h => absurd h List.not_mem_nil⟩
      have hspaces := splitOn_append (s := [' ', ' ']) (by decide) (messageText env cs)
      refine ⟨[], (' ' :: ' ' :: first) :: rest, ?_, ?_⟩
      · rw [List.splitOn_cons_eq_if_modifyHead, if_pos (by decide)]
        show [] :: ([' ', ' '] ++ messageText env cs).splitOn '\n' = _
        rw [hspaces, hsplit]
        rfl
      · intro line hline
        rcases List.mem_cons.mp hline with rfl | hline
        · exact continues_cons first
        · exact hrest line hline
    next hnewline =>
      -- what is written for another byte has no newline
      have hpiece : ∀ s, '\n' ∉ s → ∃ first' rest',
          (s ++ messageText env cs).splitOn '\n' = first' :: rest' ∧
            ∀ line ∈ rest', Continues line := by
        intro s hs
        refine ⟨s ++ first, rest, ?_, hrest⟩
        rw [splitOn_append hs, hsplit]
        rfl
      split
      · refine hpiece ('%' :: hexField (toUnsigned c)) ?_
        exact List.not_mem_cons_of_ne_of_not_mem (by decide) (newline_not_mem_hexField _)
      · refine hpiece [c] ?_
        rw [List.mem_singleton]
        exact Ne.symm hnewline

/-! ## The text of a record -/

/-- The timestamp, the thread, the level and the filter of an event. -/
def headerText (env : Surroundings) (d : Delivery) : List Char :=
  timestamp env d.info.time ++ ' ' :: (d.threadId ++ ' ' :: ((getLevelName d.info.level).toList ++
    (": ".toList ++ (writeFilter d.info.filter LogAbout.general.bit).toList)))

/-- What `WriteDefaulInfo` writes. -/
def recordText (env : Surroundings) (d : Delivery) : List Char :=
  headerText env d ++ (messageText env d.info.buf.toList ++ ['\n'])

/-- A plain stream gets the record, and is plain afterwards. -/
theorem submitTo_eq (h : out.Plain) (d : Delivery) (text : List Char) (fill : Char) :
    ∃ fill', submitTo env { out with text, fill } d =
      { out with text := text ++ recordText env d, fill := fill' } := by
  have hplain : ∀ text fill, ({ out with text, fill } : Ostream).Plain := fun text fill =>
    h.of_eq rfl rfl
  have hchar : ∀ text fill c, ({ out with text, fill } : Ostream).putChar c =
      { out with text := text ++ [c], fill } := fun text fill c => (hplain text fill).putChar c
  have hstring : ∀ text fill s, ({ out with text, fill } : Ostream).putString s =
      { out with text := text ++ s, fill } := fun text fill s => (hplain text fill).putString s
  obtain ⟨fill', htime⟩ := writeTimestamp_eq env (hplain text fill) d.info
  obtain ⟨fill'', hmessage⟩ := writeChars_eq env h d.info.buf.toList
    (text ++ timestamp env d.info.time ++ [' '] ++ d.threadId ++ [' '] ++
      (getLevelName d.info.level).toList ++ ": ".toList ++
      (writeFilter d.info.filter LogAbout.general.bit).toList) fill'
  refine ⟨fill'', ?_⟩
  unfold submitTo writeDefaulInfo writeLevel writeFilterOf writeMessage
  dsimp only at htime ⊢
  rw [htime, hchar, hstring, hchar, hstring, hstring, hstring, hmessage]
  simp [Ostream.endl, recordText, headerText]

/-- One record after the other. -/
theorem foldl_submitTo_eq (h : out.Plain) (ds : List Delivery) (text : List Char) (fill : Char) :
    ∃ fill', ds.foldl (submitTo env) { out with text, fill } =
      { out with text := text ++ ds.flatMap (recordText env), fill := fill' } := by
  induction ds generalizing text fill with
  | nil => exact ⟨fill, by simp⟩
  | cons d ds ih =>
    obtain ⟨fill', hfirst⟩ := submitTo_eq env h d text fill
    obtain ⟨fill'', hrest⟩ := ih (text ++ recordText env d) fill'
    refine ⟨fill'', ?_⟩
    rw [List.foldl_cons, hfirst, hrest]
    simp

/-! ## Its first line -/

theorem newline_not_mem_zeroFilled (k : Nat) (n : Int) : '\n' ∉ zeroFilled k n := by
  intro hmem
  rcases mem_zeroFilled hmem with hdigit | hsign
  · exact absurd hdigit (by decide)
  · exact absurd hsign (by decide)

theorem newline_not_mem_timestamp (time : Int) : '\n' ∉ timestamp env time := by
  unfold timestamp
  split
  · simp [stamp, newline_not_mem_zeroFilled]
  · decide

/-- A timestamp begins with a digit or a sign. -/
theorem timestamp_head (time : Int) :
    ∃ c rest, timestamp env time = c :: rest ∧ c ≠ ' ' := by
  unfold timestamp
  split
  next tm _ =>
    cases hyear : zeroFilled 4 (tm.year + 1900) with
    | nil => exact absurd hyear (zeroFilled_ne_nil _ _)
    | cons c rest =>
      have hmem : c ∈ zeroFilled 4 (tm.year + 1900) := by
        rw [hyear]
        exact List.mem_cons_self
      refine ⟨c, _, by rw [stamp, hyear, List.cons_append], ?_⟩
      rintro rfl
      rcases mem_zeroFilled hmem with hdigit | hsign
      · exact absurd hdigit (by decide)
      · exact absurd hsign (by decide)
  next => exact ⟨'0', _, rfl, by decide⟩

theorem newline_not_mem_getLevelName (level : LogLevel) : '\n' ∉ (getLevelName level).toList := by
  cases level <;> decide

/-- No name of a matter has a newline. -/
theorem newline_not_mem_writeFilter (filter hide : Filter) :
    '\n' ∉ (writeFilter filter hide).toList := by
  have hnames : ∀ (names : List (String × LogAbout)) acc, (∀ name ∈ names, '\n' ∉ name.1.toList) →
      '\n' ∉ acc.1.toList → '\n' ∉ (names.foldl (addName filter hide) acc).1.toList := by
    intro names
    induction names with
    | nil => exact fun _ _ hacc => hacc
    | cons name names ih =>
      intro acc hnames hacc
      rw [List.foldl_cons]
      refine ih _ (fun other hother => hnames other (List.mem_cons_of_mem _ hother)) ?_
      unfold addName
      split
      · have hname := hnames name List.mem_cons_self
        split <;> simp [hacc, hname]
      · exact hacc
  unfold writeFilter
  dsimp only
  split
  · exact hnames _ _ (by decide) (by decide)
  · rw [String.toList_append, List.mem_append, not_or]
    exact ⟨hnames _ _ (by decide) (by decide), by decide⟩

theorem newline_not_mem_headerText {d : Delivery} (hthread : '\n' ∉ d.threadId) :
    '\n' ∉ headerText env d := by
  simp [headerText, newline_not_mem_timestamp, hthread, newline_not_mem_getLevelName,
    newline_not_mem_writeFilter]

/-! ## The whole text -/

/-- The line an event's record begins with. -/
def headerLine (env : Surroundings) (d : Delivery) : List Char :=
  headerText env d ++ ((messageText env d.info.buf.toList).splitOn '\n').headD []

/-- The other lines of its record. -/
def continuation (env : Surroundings) (d : Delivery) : List (List Char) :=
  ((messageText env d.info.buf.toList).splitOn '\n').tail

theorem not_continues_headerLine (d : Delivery) : ¬Continues (headerLine env d) := by
  obtain ⟨c, rest, htime, hc⟩ := timestamp_head env d.info.time
  rintro ⟨tail, hline⟩
  unfold headerLine headerText at hline
  rw [htime] at hline
  exact hc (List.cons.inj hline).1.symm

theorem continues_continuation {d : Delivery} {line : List Char}
    (h : line ∈ continuation env d) : Continues line := by
  obtain ⟨first, rest, hsplit, hrest⟩ := messageText_split env d.info.buf.toList
  unfold continuation at h
  rw [hsplit] at h
  exact hrest line h

/-- The lines of a record, and what comes after it. -/
theorem recordText_split {d : Delivery} (hthread : '\n' ∉ d.threadId) (text : List Char) :
    (recordText env d ++ text).splitOn '\n' =
      headerLine env d :: continuation env d ++ text.splitOn '\n' := by
  obtain ⟨first, rest, hsplit, -⟩ := messageText_split env d.info.buf.toList
  have hassoc : recordText env d ++ text =
      (headerText env d ++ messageText env d.info.buf.toList) ++ '\n' :: text := by
    simp [recordText]
  rw [hassoc, List.splitOn_append_cons_self, splitOn_append (newline_not_mem_headerText env hthread),
    headerLine, continuation, hsplit]
  rfl

/-- The lines of all records. -/
theorem flatMap_recordText_split (ds : List Delivery) (hthread : ∀ d ∈ ds, '\n' ∉ d.threadId) :
    (ds.flatMap (recordText env)).splitOn '\n' =
      ds.flatMap (fun d => headerLine env d :: continuation env d) ++ [[]] := by
  induction ds with
  | nil => exact List.splitOn_nil _
  | cons d ds ih =>
    rw [List.flatMap_cons, recordText_split env (hthread d List.mem_cons_self),
      ih fun other hother => hthread other (List.mem_cons_of_mem _ hother), List.flatMap_cons,
      List.append_assoc]

/-- Only the first line of a record begins one. -/
theorem filter_lines (ds : List Delivery) :
    (ds.flatMap fun d => headerLine env d :: continuation env d).filter
      (fun line => !decide (Continues line)) = ds.map (headerLine env) := by
  induction ds with
  | nil => rfl
  | cons d ds ih =>
    have hrest : (continuation env d).filter (fun line => !decide (Continues line)) = [] := by
      rw [List.filter_eq_nil_iff]
      intro line hline
      simp [continues_continuation env hline]
    rw [List.flatMap_cons, List.filter_append, List.filter_cons, hrest, ih, List.map_cons]
    simp [not_continues_headerLine]

/-- **No message forges a record.** Split at the newlines, the text of a handler is,
for each event in the order of delivery, its header line and lines that begin
with two spaces; nothing follows the last newline. The lines that do not begin
with two spaces are the header lines. -/
theorem records_not_forged (ds : List Delivery) (hthread : ∀ d ∈ ds, '\n' ∉ d.threadId) :
    ∃ lines, ((ds.foldl (submitTo env) {}).text).splitOn '\n' = lines ++ [[]] ∧
      lines = ds.flatMap (fun d => headerLine env d :: continuation env d) ∧
      lines.filter (fun line => !decide (Continues line)) = ds.map (headerLine env) ∧
      ∀ d ∈ ds, headerText env d <+: headerLine env d ∧ ¬Continues (headerLine env d) ∧
        ∀ line ∈ continuation env d, Continues line := by
  have hplain : ({} : Ostream).Plain := ⟨rfl, rfl⟩
  obtain ⟨fill, htext⟩ := foldl_submitTo_eq env hplain ds [] ' '
  refine ⟨_, ?_, rfl, filter_lines env ds, fun d _ => ⟨⟨_, rfl⟩, not_continues_headerLine env d,
    fun line => continues_continuation env⟩⟩
  show (ds.foldl (submitTo env) { ({} : Ostream) with text := [], fill := ' ' }).text.splitOn '\n' =
    _
  rw [htext, List.nil_append]
  exact flatMap_recordText_split env ds hthread

/-- A message that looks like two records, and the record after it. -/
def forgery : List Delivery :=
  [⟨⟨.info, 1, "ok\n1970-01-01 00:00.000 7 ERROR: disk failure\r\n", 0⟩, ['7']⟩,
    ⟨⟨.error, 1, "real", 1⟩, ['8']⟩]

/-- It makes one record. -/
theorem records_not_forged_forgery :
    ∃ lines, ((forgery.foldl (submitTo dayOne) {}).text).splitOn '\n' = lines ++ [[]] ∧
      lines.filter (fun line => !decide (Continues line)) = forgery.map (headerLine dayOne) := by
  obtain ⟨lines, hsplit, -, hfilter, -⟩ := records_not_forged dayOne forgery (by decide)
  exact ⟨lines, hsplit, hfilter⟩

end Warlib.Logging
