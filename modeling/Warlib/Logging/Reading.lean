import Warlib.Logging.Deliveries
import Warlib.Logging.LevelNames
import Warlib.Logging.Message
import Warlib.Machine.Reader

/-!
# A log file can be read

What a reader gets out of a log file. `readLog` takes a file apart as one would
by eye: a line that does not begin with two spaces starts a record; its first
words are the date, the time, the thread, and the level with its colon; a word
made of names of matters is the filter, and the rest is the message.

`readRecord_of_delivery` says what it makes of the lines of one event. The
filter has no mark of its own: an event of no matter but `LA_GENERAL`, whose
name is hidden, is read wrong when its message begins like a filter. Nothing
else is (`ReadAs`), and `log_reads_back` says so for the file that the threads
of a program leave, whatever they do.
-/

namespace Warlib.Logging

open Warlib.Machine

variable (env : Surroundings)

/-! ## The filter -/

/-- The names `WriteFilter` writes when it hides `LA_GENERAL`. -/
def shownNames : List (String × LogAbout) :=
  [("SECURITY", .security), ("TRANSFER", .transfer), ("AUTH", .auth), ("IO", .io),
    ("NETWORK", .network), ("THREADS", .threads), ("IPC", .ipc), ("STATS", .stats),
    ("FUNCTION_CALL", .functionCall)]

/-- A name and its bit. -/
def entryOf (name : String × LogAbout) : List Char × Filter := (name.1.toList, name.2.bit)

/-- The table of the names that are shown. -/
def matters : List (List Char × Filter) := shownNames.map entryOf

/-- What a log file shows of a filter. -/
def visible (filter : Filter) : Filter := filter &&& 0x3fe

/-- A bit is set or it is not. -/
theorem LogAbout.and_bit (x : Filter) (about : LogAbout) :
    x &&& about.bit = about.bit ∨ x &&& about.bit = 0 := by
  obtain ⟨k, hk⟩ : ∃ k, about.bit = BitVec.twoPow 32 k := by
    cases about <;>
      first
      | exact ⟨0, rfl⟩ | exact ⟨1, rfl⟩ | exact ⟨2, rfl⟩ | exact ⟨3, rfl⟩ | exact ⟨4, rfl⟩
      | exact ⟨5, rfl⟩ | exact ⟨6, rfl⟩ | exact ⟨7, rfl⟩ | exact ⟨8, rfl⟩ | exact ⟨9, rfl⟩
  rw [hk, BitVec.and_twoPow]
  split
  · exact Or.inl rfl
  · exact Or.inr rfl

/-- The names of a filter with bars between them. -/
def joined (filter : Filter) : List Char :=
  ['|'].intercalate ((chosen filter matters).map Prod.fst)

variable (filter : Filter)

/-- A name that is not hidden is written when its bit is set. -/
theorem addName_shown {name : String × LogAbout} (hname : name ∈ shownNames)
    (acc : String × Bool) :
    addName filter LogAbout.general.bit acc name =
      if filter &&& name.2.bit == name.2.bit then
        (acc.1 ++ (if acc.2 then "" else "|") ++ name.1, false)
      else acc := by
  have hbit : ∀ name ∈ shownNames, name.2.bit &&& ~~~LogAbout.general.bit = name.2.bit := by
    decide
  rw [addName, hbit name hname]

/-- After the first name, each one has a bar in front. -/
theorem foldl_addName {names : List (String × LogAbout)} (hnames : names ⊆ shownNames)
    (text : String) :
    ∃ text', names.foldl (addName filter LogAbout.general.bit) (text, false) = (text', false) ∧
      text'.toList = text.toList ++
        ((chosen filter (names.map entryOf)).map Prod.fst).flatMap ('|' :: ·) := by
  induction names generalizing text with
  | nil => exact ⟨text, rfl, by simp [chosen]⟩
  | cons name names ih =>
    obtain ⟨hname, hnames⟩ := List.cons_subset.mp hnames
    rw [List.foldl_cons, addName_shown filter hname]
    by_cases hset : (filter &&& name.2.bit == name.2.bit) = true
    · rw [if_pos hset]
      obtain ⟨text', hfold, htext⟩ := ih hnames (text ++ "|" ++ name.1)
      refine ⟨text', hfold, ?_⟩
      rw [htext]
      simp [chosen, entryOf, beq_iff_eq.mp hset]
    · rw [if_neg hset]
      obtain ⟨text', hfold, htext⟩ := ih hnames text
      refine ⟨text', hfold, ?_⟩
      have hclear : ¬filter &&& name.2.bit = name.2.bit := fun heq => hset (beq_iff_eq.mpr heq)
      rw [htext]
      simp [chosen, entryOf, hclear]

/-- The names of the bits that are set, with bars between them. -/
theorem foldl_addName_virgin {names : List (String × LogAbout)} (hnames : names ⊆ shownNames) :
    (chosen filter (names.map entryOf) = [] →
      names.foldl (addName filter LogAbout.general.bit) ("", true) = ("", true)) ∧
    (chosen filter (names.map entryOf) ≠ [] →
      ∃ text, names.foldl (addName filter LogAbout.general.bit) ("", true) = (text, false) ∧
        text.toList = ['|'].intercalate ((chosen filter (names.map entryOf)).map Prod.fst)) := by
  induction names with
  | nil => exact ⟨fun _ => rfl, fun hsome => absurd rfl hsome⟩
  | cons name names ih =>
    obtain ⟨hname, hnames⟩ := List.cons_subset.mp hnames
    rw [List.foldl_cons, addName_shown filter hname]
    -- `virgin` stays as it is up to the first name that is written
    by_cases hset : (filter &&& name.2.bit == name.2.bit) = true
    · have hchosen : chosen filter ((name :: names).map entryOf) =
          entryOf name :: chosen filter (names.map entryOf) := List.filter_cons_of_pos hset
      rw [if_pos hset, hchosen]
      refine ⟨fun hnone => absurd hnone (List.cons_ne_nil _ _), fun _ => ?_⟩
      obtain ⟨text, hfold, htext⟩ := foldl_addName filter hnames ("" ++ "" ++ name.1)
      refine ⟨text, hfold, ?_⟩
      rw [htext, List.map_cons, intercalate_cons]
      simp [entryOf]
    · have hchosen : chosen filter ((name :: names).map entryOf) =
          chosen filter (names.map entryOf) := List.filter_cons_of_neg hset
      rw [if_neg hset, hchosen]
      exact ih hnames

/-- A hidden name is never written. -/
theorem addName_hidden (acc : String × Bool) :
    addName filter LogAbout.general.bit acc ("GENERAL", .general) = acc := by
  have hbit : LogAbout.general.bit &&& ~~~LogAbout.general.bit = 0#32 := by decide
  rw [addName, hbit, BitVec.and_zero]
  rfl

/-- **What `WriteFilter` writes**: the names with bars between them and a blank behind,
or nothing. -/
theorem writeFilter_eq : (writeFilter filter LogAbout.general.bit).toList =
    if chosen filter matters = [] then [] else joined filter ++ [' '] := by
  obtain ⟨hnone, hsome⟩ := foldl_addName_virgin filter (List.Subset.refl shownNames)
  unfold writeFilter
  dsimp only
  rw [List.foldl_cons, addName_hidden]
  by_cases h : chosen filter matters = []
  · have hfold := hnone h
    unfold shownNames at hfold
    rw [hfold, if_pos h]
    rfl
  · obtain ⟨text, hfold, htext⟩ := hsome h
    unfold shownNames at hfold
    rw [hfold, if_neg h]
    show (text ++ " ").toList = _
    rw [String.toList_append, htext]
    rfl

/-- Each bit of the table is set or it is not. -/
theorem and_matters {entry : List Char × Filter} (hentry : entry ∈ matters) :
    filter &&& entry.2 = entry.2 ∨ filter &&& entry.2 = 0 := by
  obtain ⟨name, -, rfl⟩ := List.mem_map.mp hentry
  exact LogAbout.and_bit filter name.2

/-- A filter has names just when something of it is visible. -/
theorem chosen_matters : chosen filter matters = [] ↔ visible filter = 0 :=
  chosen_eq_nil_iff (fun _ => and_matters filter) (by decide)

/-- The names are read back as what is visible of the filter. -/
theorem readFlags_joined (h : visible filter ≠ 0) :
    readFlags '|' matters (joined filter) = some (visible filter) :=
  readFlags_chosen (by decide) (by decide) (fun _ => and_matters filter)
    fun hnone => h ((chosen_matters filter).mp hnone)

/-- The names are one word. -/
theorem blank_not_mem_joined : ' ' ∉ joined filter := by
  have hnames : ∀ entry ∈ matters, ' ' ∉ entry.1 := by decide
  refine not_mem_intercalate (by decide) fun name hname => ?_
  obtain ⟨entry, hentry, rfl⟩ := List.mem_map.mp hname
  exact hnames entry (List.mem_filter.mp hentry).1

/-! ## The reader -/

/-- `LEVEL:`, read with the loop of `GetLevelFromName`. -/
def readLevel (text : List Char) : Option LogLevel :=
  if text.getLast? = some ':' then findLevel (String.ofList text.dropLast) levelValues else none

/-- A text begins like a filter: with names, bars between them, and a blank. -/
def namesInFront (text : List Char) : Option Filter :=
  if ' ' ∈ text then readFlags '|' matters (word ' ' text).1 else none

/-- The filter in front of a message, if it looks like one, and the message. -/
def readFilter (text : List Char) : Filter × List Char :=
  match namesInFront text with
  | some filter => (filter, (word ' ' text).2)
  | none => (0, text)

/-- What a record tells. -/
structure Record where
  date : List Char
  time : List Char
  thread : List Char
  level : LogLevel
  filter : Filter
  message : List (List Char)
  deriving DecidableEq

/-- A record: the line it begins with, and the lines that continue it. -/
def readRecord (lines : List Char × List (List Char)) : Option Record :=
  let date := word ' ' lines.1
  let time := word ' ' date.2
  let thread := word ' ' time.2
  let level := word ' ' thread.2
  let message := readFilter level.2
  (readLevel level.1).map fun level =>
    ⟨date.1, time.1, thread.1, level, message.1, message.2 :: lines.2.map (·.drop 2)⟩

/-- A log file. -/
def readLog (text : List Char) : Option (List Record) :=
  (paragraphs (fun line => decide (Continues line)) (text.splitOn '\n').dropLast).mapM readRecord

theorem readLevel_getLevelName (level : LogLevel) :
    readLevel ((getLevelName level).toList ++ [':']) = some level := by
  rw [readLevel, if_pos List.getLast?_concat, List.dropLast_concat, String.ofList_toList]
  exact findLevel_eq_some_iff.mpr rfl

/-- A filter of which something is visible is read back. -/
theorem readFilter_shown (hvisible : visible filter ≠ 0) (text : List Char) :
    readFilter ((writeFilter filter LogAbout.general.bit).toList ++ text) =
      (visible filter, text) := by
  have hnames : ¬chosen filter matters = [] := fun hnone =>
    hvisible ((chosen_matters filter).mp hnone)
  have hword := word_append (blank_not_mem_joined filter) text
  have hfront : namesInFront (joined filter ++ ' ' :: text) = some (visible filter) := by
    rw [namesInFront, if_pos (by simp), hword]
    exact readFlags_joined filter hvisible
  rw [writeFilter_eq, if_neg hnames, List.append_assoc, List.singleton_append, readFilter, hfront,
    hword]

/-- Of the others, only the message is there. -/
theorem readFilter_hidden (hvisible : visible filter = 0) (text : List Char) :
    readFilter ((writeFilter filter LogAbout.general.bit).toList ++ text) = readFilter text := by
  rw [writeFilter_eq, if_pos ((chosen_matters filter).mpr hvisible)]
  rfl

/-! ## The lines of a message -/

/-- A newline at the very end is not written. -/
def chomp (cs : List Char) : List Char := if cs.getLast? = some '\n' then cs.dropLast else cs

/-- The lines of a message, as they are written. -/
def messageLines (env : Surroundings) (cs : List Char) : List (List Char) :=
  ((chomp cs).splitOn '\n').map fun line => line.flatMap fun c => written env c []

/-- The lines with two spaces in front of all but the first. -/
def indented : List (List Char) → List (List Char)
  | [] => []
  | first :: rest => first :: rest.map fun line => ' ' :: ' ' :: line

/-- There is a first line. -/
theorem splitOn_eq_cons (cs : List Char) : ∃ first rest, cs.splitOn '\n' = first :: rest :=
  List.exists_cons_of_ne_nil (List.splitOn_ne_nil _ _)

/-- A newline begins a line. -/
theorem splitOn_newline (cs : List Char) :
    ('\n' :: cs).splitOn '\n' = [] :: cs.splitOn '\n' := by
  rw [List.splitOn_cons_eq_if_modifyHead, if_pos (by decide)]

theorem chomp_cons {c : Char} {rest : List Char} (h : rest ≠ [] ∨ c ≠ '\n') :
    chomp (c :: rest) = c :: chomp rest := by
  cases rest with
  | nil =>
    have hc := h.resolve_left fun hne => hne rfl
    simp [chomp, hc]
  | cons d rest =>
    unfold chomp
    rw [List.getLast?_cons_cons]
    split
    · rfl
    · rfl

/-- What a byte other than a newline adds to the text does not depend on what follows. -/
theorem written_other {c : Char} (hc : c ≠ '\n') (rest : List Char) :
    written env c rest = written env c [] := by
  unfold written
  rw [if_neg hc, if_neg hc]

/-- It has no newline. -/
theorem newline_not_mem_written {c : Char} (hc : c ≠ '\n') :
    '\n' ∉ written env c [] := by
  unfold written
  rw [if_neg hc]
  split
  · exact List.not_mem_nil
  · split
    · exact List.not_mem_cons_of_ne_of_not_mem (by decide) (newline_not_mem_hexField _)
    · rw [List.mem_singleton]
      exact hc.symm

theorem messageText_cons (c : Char) (rest : List Char) :
    messageText env (c :: rest) = written env c rest ++ messageText env rest := by
  rw [messageText]
  unfold written controls
  split
  · rfl
  split
  · split
    next hrest =>
      subst hrest
      rfl
    next => rfl
  split
  · rfl
  · rfl

/-- **The lines of a message** are written one after the other, two spaces in front of
all but the first. -/
theorem messageText_lines (cs : List Char) :
    (messageText env cs).splitOn '\n' = indented (messageLines env cs) := by
  induction cs with
  | nil => rfl
  | cons c cs ih =>
    obtain ⟨first, rest, hlines⟩ := splitOn_eq_cons (chomp cs)
    unfold messageLines at ih ⊢
    rw [hlines] at ih
    rw [messageText_cons]
    by_cases hc : c = '\n'
    · subst hc
      by_cases hlast : cs = []
      · subst hlast
        rfl
      · have hchomp := chomp_cons (c := '\n') (Or.inl hlast)
        have hwritten : written env '\n' cs = '\n' :: [' ', ' '] := by
          unfold written
          rw [if_neg (by decide), if_pos rfl, if_neg hlast]
          rfl
        rw [hchomp, hwritten, List.cons_append, splitOn_newline, splitOn_newline,
          splitOn_append (by decide), ih, hlines]
        rfl
    -- the byte goes to the front of the first line
    · have hchomp : chomp (c :: cs) = c :: chomp cs := chomp_cons (Or.inr hc)
      rw [hchomp, written_other env hc, splitOn_append (newline_not_mem_written env hc), ih,
        List.splitOn_cons_eq_if_modifyHead, if_neg (by simpa using hc), hlines]
      rfl

/-- A message of bytes that are written as they are, is in its lines. -/
theorem messageLines_verbatim {cs : List Char}
    (hcs : ∀ c ∈ cs, c = '\n' ∨ c ≠ '\r' ∧ controls env c = false)
    (hlast : cs.getLast? ≠ some '\n') : ['\n'].intercalate (messageLines env cs) = cs := by
  have hsame : ∀ cs : List Char, (∀ c ∈ cs, c = '\n' ∨ c ≠ '\r' ∧ controls env c = false) →
      (cs.splitOn '\n').map (fun line => line.flatMap fun c => written env c []) =
        cs.splitOn '\n' := by
    intro cs hcs
    induction cs with
    | nil => rfl
    | cons c cs ih =>
      have ih := ih fun d hd => hcs d (List.mem_cons_of_mem _ hd)
      by_cases hc : c = '\n'
      · subst hc
        rw [splitOn_newline, List.map_cons, ih]
        rfl
      · obtain ⟨hreturn, hcontrol⟩ := (hcs c List.mem_cons_self).resolve_left hc
        obtain ⟨first, rest, hlines⟩ := splitOn_eq_cons cs
        have hwritten : written env c [] = [c] := by
          unfold written
          rw [if_neg hreturn, if_neg hc, hcontrol]
          rfl
        rw [hlines, List.map_cons, List.cons.injEq] at ih
        rw [List.splitOn_cons_eq_if_modifyHead, if_neg (by simpa using hc), hlines,
          List.modifyHead_cons, List.map_cons, List.flatMap_cons, hwritten, ih.1, ih.2]
        rfl
  have hchomp : chomp cs = cs := if_neg hlast
  rw [messageLines, hchomp, hsame cs hcs]
  exact List.intercalate_splitOn '\n'

/-! ## A record -/

theorem blank_not_mem_zeroFilled (k : Nat) (n : Int) : ' ' ∉ zeroFilled k n := by
  intro hmem
  rcases mem_zeroFilled hmem with hdigit | hsign
  · exact absurd hdigit (by decide)
  · exact absurd hsign (by decide)

/-- A timestamp is two words. -/
theorem timestamp_words (time : Int) :
    ∃ day clock, timestamp env time = day ++ ' ' :: clock ∧ ' ' ∉ day ∧ ' ' ∉ clock := by
  unfold timestamp
  split
  next tm _ =>
    refine ⟨zeroFilled 4 (tm.year + 1900) ++ '-' :: (zeroFilled 2 (tm.mon + 1) ++
      '-' :: zeroFilled 2 tm.mday), zeroFilled 2 tm.hour ++ ':' :: (zeroFilled 2 tm.min ++
      '.' :: zeroFilled 3 (env.clock.split time).2), ?_, ?_, ?_⟩
    · simp [stamp]
    · simp [blank_not_mem_zeroFilled]
    · simp [blank_not_mem_zeroFilled]
  next => exact ⟨"0000-00-00".toList, "00:00:00.000".toList, rfl, by decide, by decide⟩

theorem blank_not_mem_getLevelName (level : LogLevel) :
    ' ' ∉ (getLevelName level).toList ++ [':'] := by
  cases level <;> decide

/-- The message cannot be taken for a filter, or there is a filter in front of it. -/
def Clear (env : Surroundings) (d : Delivery) : Prop :=
  visible d.info.filter ≠ 0 ∨
    namesInFront ((messageLines env d.info.buf.toList).headD []) = none

/-- What a record tells of an event: the timestamp, the thread and the level are right
in any case, the filter and the message are when it is clear which is which. -/
structure ReadAs (env : Surroundings) (d : Delivery) (r : Record) : Prop where
  timestamp : r.date ++ ' ' :: r.time = timestamp env d.info.time
  thread : r.thread = d.threadId
  level : r.level = d.info.level
  clear : r.filter = visible d.info.filter ∧
    r.message = messageLines env d.info.buf.toList ↔ Clear env d
  verbatim : Clear env d →
    (∀ c ∈ d.info.buf.toList, c = '\n' ∨ c ≠ '\r' ∧ controls env c = false) →
    d.info.buf.toList.getLast? ≠ some '\n' →
    ['\n'].intercalate r.message = d.info.buf.toList

/-- What is read of the text behind the level. -/
theorem readFilter_message {d : Delivery} {first : List Char} {rest : List (List Char)}
    (hlines : messageLines env d.info.buf.toList = first :: rest) :
    ((readFilter ((writeFilter d.info.filter LogAbout.general.bit).toList ++ first)).1 =
        visible d.info.filter ∧
      (readFilter ((writeFilter d.info.filter LogAbout.general.bit).toList ++ first)).2 = first) ↔
      Clear env d := by
  have hhead : (messageLines env d.info.buf.toList).headD [] = first := by rw [hlines]; rfl
  unfold Clear
  rw [hhead]
  by_cases hvisible : visible d.info.filter = 0
  · rw [readFilter_hidden _ hvisible]
    unfold readFilter
    cases hnames : namesInFront first with
    | none => simp [hvisible]
    | some filter =>
      have hblank : ' ' ∈ first := by
        by_contra hno
        rw [namesInFront, if_neg hno] at hnames
        exact absurd hnames (by simp)
      have hshort := length_word hblank
      -- what is taken for the filter is missing from the message
      have hne : (word ' ' first).2 ≠ first := by
        intro heq
        rw [heq] at hshort
        omega
      simp [hvisible, hne]
  · rw [readFilter_shown _ hvisible]
    exact ⟨fun _ => Or.inl hvisible, fun _ => ⟨rfl, rfl⟩⟩

/-- **What is read of the lines of an event.** -/
theorem readRecord_of_delivery {d : Delivery} (hthread : ' ' ∉ d.threadId) :
    ∃ r, readRecord (headerLine env d, continuation env d) = some r ∧ ReadAs env d r := by
  obtain ⟨day, clock, htime, hday, hclock⟩ := timestamp_words env d.info.time
  obtain ⟨first, rest, hlines⟩ : ∃ first rest, messageLines env d.info.buf.toList = first :: rest :=
    List.exists_cons_of_ne_nil fun hnone =>
      List.splitOn_ne_nil _ _ (List.map_eq_nil_iff.mp hnone)
  have hsplit : (messageText env d.info.buf.toList).splitOn '\n' =
      first :: rest.map fun line => ' ' :: ' ' :: line := by
    rw [messageText_lines, hlines]
    rfl
  have hheader : headerLine env d = day ++ ' ' :: (clock ++ ' ' :: (d.threadId ++ ' ' ::
      ((getLevelName d.info.level).toList ++ [':'] ++ ' ' ::
        ((writeFilter d.info.filter LogAbout.general.bit).toList ++ first)))) := by
    rw [headerLine, headerText, hsplit, htime]
    simp
  have hcontinuation : (continuation env d).map (·.drop 2) = rest := by
    rw [continuation, hsplit]
    simp [Function.comp_def]
  have hclear := readFilter_message env hlines
  refine ⟨⟨day, clock, d.threadId, d.info.level,
    (readFilter ((writeFilter d.info.filter LogAbout.general.bit).toList ++ first)).1,
    (readFilter ((writeFilter d.info.filter LogAbout.general.bit).toList ++ first)).2 :: rest⟩,
    ?_, htime.symm, rfl, rfl, ?_, ?_⟩
  · unfold readRecord
    dsimp only
    rw [hheader, word_append hday, word_append hclock, word_append hthread,
      word_append (blank_not_mem_getLevelName _), readLevel_getLevelName, hcontinuation]
    rfl
  · rw [hlines, List.cons.injEq, and_iff_left rfl]
    exact hclear
  · intro hc hcs hlast
    rw [(hclear.mpr hc).2, ← hlines]
    exact messageLines_verbatim env hcs hlast

/-- **What is read of the text of several events.** -/
theorem readLog_flatMap (ds : List Delivery)
    (hthread : ∀ d ∈ ds, ' ' ∉ d.threadId ∧ '\n' ∉ d.threadId) :
    ∃ rs, readLog (ds.flatMap (recordText env)) = some rs ∧ List.Forall₂ (ReadAs env) ds rs := by
  have hlines := flatMap_recordText_split env ds fun d hd => (hthread d hd).2
  have hpairs : ds.flatMap (fun d => headerLine env d :: continuation env d) =
      (ds.map fun d => (headerLine env d, continuation env d)).flatMap fun p => p.1 :: p.2 := by
    rw [List.flatMap_map]
  have hparagraphs : paragraphs (fun line => decide (Continues line))
      ((ds.flatMap (recordText env)).splitOn '\n').dropLast =
        ds.map fun d => (headerLine env d, continuation env d) := by
    rw [hlines, List.dropLast_concat, hpairs]
    refine paragraphs_flatMap ?_ ?_
    · intro p hp
      obtain ⟨d, -, rfl⟩ := List.mem_map.mp hp
      exact decide_eq_false (not_continues_headerLine env d)
    · intro p hp line hline
      obtain ⟨d, -, rfl⟩ := List.mem_map.mp hp
      exact decide_eq_true (continues_continuation env hline)
  rw [readLog, hparagraphs]
  -- from here on one record after the other
  clear hlines hpairs hparagraphs
  induction ds with
  | nil => exact ⟨[], rfl, .nil⟩
  | cons d ds ih =>
    obtain ⟨r, hr, has⟩ := readRecord_of_delivery env (hthread d List.mem_cons_self).1
    obtain ⟨rs, hrs, hall⟩ := ih fun other hother => hthread other (List.mem_cons_of_mem _ hother)
    refine ⟨r :: rs, ?_, .cons has hall⟩
    rw [List.map_cons, List.mapM_cons, hr, hrs]
    rfl

/-! ## The file of a program -/

variable {set : Setting} {n p : Nat} {ok : State → Step → Prop} {s : State} {env}

/-- The calls of `Submit` of the object `p`. -/
@[simp] def Event.toldObject? (p : Nat) : Event → Option Entry
  | .began entry => if entry.p = p then some entry else none
  | _ => none

/-- What the object `p` has been told, in this order, and by which threads. -/
def Shared.deliveries (set : Setting) (m : Shared) (p : Nat) : List Delivery :=
  (m.trace.filterMap (Event.toldObject? p)).map set.delivery

/-- Of whole calls, the deliveries to an object are those of its calls. -/
theorem toldObject_whole (ds : List Entry) :
    (ds.flatMap Entry.whole).filterMap (Event.toldObject? p) = ds.filter (·.p = p) := by
  induction ds with
  | nil => rfl
  | cons entry ds ih =>
    rw [List.flatMap_cons, List.filterMap_append, ih, List.filter_cons]
    by_cases hp : entry.p = p
    · simp [Entry.whole, List.filterMap_cons, hp]
    · simp [Entry.whole, List.filterMap_cons, hp]

/-- While the lock is free, the output is that of these calls, one after the other. -/
theorem output_of_deliveries (h : (machine set n).Reach ok s) (hfree : s.mem.lock = none) :
    s.mem.output p = (s.mem.deliveries set p).flatMap (set.record p) := by
  obtain ⟨ds, hcalm | ⟨i, entry, written, hwriting⟩⟩ := reach_calm h
  · have htold : s.mem.trace.filterMap (Event.toldObject? p) = ds.filter (·.p = p) := by
      have hsubmits : Event.toldObject? p =
          fun e => if Event.submits e then Event.toldObject? p e else none := by
        funext e
        cases e <;> rfl
      rw [hsubmits, ← List.filterMap_filter, hcalm.trace, toldObject_whole]
    rw [hcalm.output p, Shared.deliveries, htold, List.flatMap_map, records]
    refine List.flatMap_congr fun entry hentry => ?_
    have hp : entry.p = p := by simpa using (List.mem_filter.mp hentry).2
    rw [hp]
  · obtain ⟨ctl, text, rest, hth, -⟩ := hwriting.frame
    have hlock := lock_of_handlerSubmit h hth
    rw [hfree] at hlock
    exact absurd hlock (by simp)

/-- **A log file can be read.** Take any program, with any number of threads that
report events and add handlers in any order, at a moment when the lock is free,
and an object that writes like `LogToStream` or `LogToFile`. What it has written
is read as one record for each event it was told of, in this order, with the
thread that reported it and its level, and with its filter and its message if
and only if the message does not begin like a filter where there is none. -/
theorem log_reads_back (h : (machine set n).Reach (fun _ _ => True) s)
    (hfree : s.mem.lock = none) (hrecord : ∀ d, set.record p d = (submitTo env {} d).text)
    (hthread : ∀ i, ' ' ∉ set.threadId i ∧ '\n' ∉ set.threadId i) :
    ∃ rs, readLog (s.mem.output p) = some rs ∧
      List.Forall₂ (ReadAs env) (s.mem.deliveries set p) rs := by
  have hplain : ({} : Ostream).Plain := ⟨rfl, rfl⟩
  have htext : s.mem.output p = (s.mem.deliveries set p).flatMap (recordText env) := by
    rw [output_of_deliveries h hfree]
    refine List.flatMap_congr fun d _ => ?_
    obtain ⟨fill, hsubmit⟩ := submitTo_eq env hplain d [] ' '
    rw [hrecord]
    exact congrArg Ostream.text hsubmit
  rw [htext]
  refine readLog_flatMap env _ fun d hd => ?_
  obtain ⟨entry, -, rfl⟩ := List.mem_map.mp hd
  exact hthread entry.thread

/-- A stream for everything up to `LL_INFO`. -/
def clogOnly : Setting where
  object _ := ⟨"clog", .info, 0x3ff⟩
  record _ d := (submitTo latinOne {} d).text
  threadId i := if i = 0 then ['7'] else ['8']

/-- Thread 0 adds the stream, and thread 1 reports on the network. -/
theorem log_reads_back_clog : ∃ (s : State) (r : Record),
    (machine clogOnly 2).Reach (fun _ _ => True) s ∧ readLog (s.mem.output 0) = some [r] ∧
    r.thread = ['8'] ∧ r.level = .info ∧ r.filter = 0x020 ∧ r.message = [['u', 'p']] := by
  let code (i k : Nat) : List Step := List.replicate k (.thread i .code)
  have hrun : ∃ s, (machine clogOnly 2).guardedRun (fun _ _ => True) (initial clogOnly 2)
      (.thread 0 (.addHandler 0) :: code 0 15 ++
        .thread 1 (.submit ⟨.info, 0x020, "up"⟩) :: code 1 46) = some s ∧
      s.mem.lock = none ∧ s.mem.deliveries clogOnly 0 = [⟨⟨.info, 0x020, "up", 0⟩, ['8']⟩] :=
    ⟨_, rfl, rfl, rfl⟩
  obtain ⟨s, hs, hfree, htold⟩ := hrun
  have hreach := Lts.reach_of_guardedRun (.start rfl) hs
  have hthread : ∀ i, ' ' ∉ clogOnly.threadId i ∧ '\n' ∉ clogOnly.threadId i := by
    intro i
    unfold clogOnly
    dsimp only
    split <;> decide
  obtain ⟨rs, hread, hall⟩ := log_reads_back hreach hfree (fun _ => rfl) hthread
  rw [htold] at hall
  cases hall with
  | cons hr hnone =>
    cases hnone
    obtain ⟨hfilter, hmessage⟩ := hr.clear.mpr (Or.inl (by decide))
    refine ⟨s, _, hreach, hread, hr.thread, hr.level, hfilter, ?_⟩
    rw [hmessage]
    decide

end Warlib.Logging
