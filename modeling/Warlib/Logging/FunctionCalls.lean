import Warlib.Logging.Relevance
import Warlib.Machine.Brackets

/-!
# What a trace of function calls tells

`LogFunctionCall` reports that a function is entered when it is constructed and
that it is left when it is destroyed, on every way out. A handler for
`LA_FUNCTION_CALL` gets both, and nothing else with these words.

`Code` is what a function does after the object is constructed: what a program
does with the engine, calls, and exceptions. `Code.calls` is the nesting of its
calls as far as a handler's level goes, and `calls_read_back` says that the
handler's events, read as brackets, are this nesting, whatever else is logged
and whoever else is attached in between.

Mirroring notes:

* The constructor and the destructor are `noexcept` and swallow what is thrown in
  them; no handler throws here.
* `WAR_LOG_FUNCTION` takes name, line and file from the compiler and leaves the
  level at its default; here they are given. In a build without `DEBUG` the
  macro is empty.
-/

namespace Warlib.Logging

open Warlib.Machine

/-! ## Functions that report their calls -/

/-- `LogFunctionCall`. -/
structure LogFunctionCall where
  name : String
  line : Int
  file : String
  level : LogLevel := .trace3
  deriving DecidableEq, Repr

/-- What both messages say about the function. -/
def LogFunctionCall.place (f : LogFunctionCall) : String :=
  f.name ++ " " ++ f.file ++ " " ++ toString f.line

/-- The constructor `LogFunctionCall(functionName, line, file, level)`. -/
def LogEngine.entering (e : LogEngine) (f : LogFunctionCall) (now : Int) : LogEngine :=
  e.statement f.level LogAbout.functionCall.bit ("Entering: " ++ f.place) now

/-- The destructor `~LogFunctionCall()`. -/
def LogEngine.leaving (e : LogEngine) (f : LogFunctionCall) (now : Int) : LogEngine :=
  e.statement f.level LogAbout.functionCall.bit ("Leaving: " ++ f.place) now

/-- What is left to do of a function: an operation on the engine, a call of a function
that begins with a `LogFunctionCall`, a block that catches everything, or the
end, by a return or by an exception. -/
inductive Code
  | done
  | throws
  | logs (op : Op) (rest : Code)
  | call (f : LogFunctionCall) (now now' : Int) (body rest : Code)
  | tryCatch (body rest : Code)

/-- Do it; the second part says whether it returns. -/
def Code.run : Code → LogEngine → LogEngine × Bool
  | .done, e => (e, true)
  | .throws, e => (e, false)
  | .logs op rest, e => rest.run (e.apply op)
  | .call f now now' body rest, e =>
    let inside := body.run (e.entering f now)
    let left := inside.1.leaving f now'
    if inside.2 then rest.run left else (left, false)
  | .tryCatch body rest, e => rest.run (body.run e).1

/-- The nesting of the calls up to a level, and whether the code returns. -/
def Code.calls (level : LogLevel) : Code → Forest String × Bool
  | .done => (.nil, true)
  | .throws => (.nil, false)
  | .logs _ rest => rest.calls level
  | .call f _ _ body rest =>
    let inside := body.calls level
    let here := if f.level ≤ level then .node f.place inside.1 .nil else inside.1
    if inside.2 then (here.append (rest.calls level).1, (rest.calls level).2) else (here, false)
  | .tryCatch body rest => ((body.calls level).1.append (rest.calls level).1, (rest.calls level).2)

/-! ## What a handler reads -/

/-- An event that tells of a call. -/
def SubmitInfo.mark? (si : SubmitInfo) : Option (Mark String) :=
  if si.filter = LogAbout.functionCall.bit then
    if "Entering: ".toList <+: si.buf.toList then
      some (.opens (String.ofList (si.buf.toList.drop 10)))
    else if "Leaving: ".toList <+: si.buf.toList then
      some (.closes (String.ofList (si.buf.toList.drop 9)))
    else none
  else none

/-- The marks the handler at `p` has been told. -/
def LogEngine.callMarks (e : LogEngine) (p : Nat) : List (Mark String) :=
  e.submitted.filterMap fun call => if call.1 = p then call.2.mark? else none

/-- The code leaves the handler at `p` alone, and no other message pretends to be one of
`LogFunctionCall`. -/
def Code.Spares (p : Nat) : Code → Prop
  | .done => True
  | .throws => True
  | .logs (.addHandler q _ _) rest => q ≠ p ∧ rest.Spares p
  | .logs (.setLevel q _) rest => q ≠ p ∧ rest.Spares p
  | .logs (.statement level filter buf now) rest =>
    SubmitInfo.mark? ⟨level, filter, buf, now⟩ = none ∧ rest.Spares p
  | .call _ _ _ body rest => body.Spares p ∧ rest.Spares p
  | .tryCatch body rest => body.Spares p ∧ rest.Spares p

variable {e : LogEngine} {p : Nat} {level : LogLevel} {filter : Filter} {buf : String} {now : Int}

theorem mark_entering (f : LogFunctionCall) (now : Int) :
    SubmitInfo.mark? ⟨f.level, LogAbout.functionCall.bit, "Entering: " ++ f.place, now⟩ =
      some (.opens f.place) := by
  have htext : ("Entering: " ++ f.place).toList = "Entering: ".toList ++ f.place.toList :=
    String.toList_append
  have hdrop : ("Entering: ".toList ++ f.place.toList).drop 10 = f.place.toList := rfl
  rw [SubmitInfo.mark?, if_pos rfl, htext, if_pos (List.prefix_append _ _), hdrop,
    String.ofList_toList]

theorem mark_leaving (f : LogFunctionCall) (now : Int) :
    SubmitInfo.mark? ⟨f.level, LogAbout.functionCall.bit, "Leaving: " ++ f.place, now⟩ =
      some (.closes f.place) := by
  have htext : ("Leaving: " ++ f.place).toList = "Leaving: ".toList ++ f.place.toList :=
    String.toList_append
  have hother : ¬"Entering: ".toList <+: "Leaving: ".toList ++ f.place.toList := by
    rintro ⟨rest, heq⟩
    have hhead : 'E' = 'L' := (List.cons.inj heq).1
    exact absurd hhead (by decide)
  have hdrop : ("Leaving: ".toList ++ f.place.toList).drop 9 = f.place.toList := rfl
  rw [SubmitInfo.mark?, if_pos rfl, htext, if_neg hother, if_pos (List.prefix_append _ _), hdrop,
    String.ofList_toList]

/-- An event that tells of no call leaves no mark. -/
theorem callMarks_statement_none (h : SubmitInfo.mark? ⟨level, filter, buf, now⟩ = none) :
    (e.statement level filter buf now).callMarks p = e.callMarks p := by
  unfold LogEngine.statement LogEngine.submit
  split
  · rw [doSubmit_eq]
    unfold LogEngine.callMarks
    dsimp only
    rw [List.filterMap_append, List.filterMap_map]
    -- whoever is told, it is no mark
    have hnone : ((e.handlers.filter fun q => (e.object q).admits ⟨level, filter, buf⟩).filterMap
        ((fun call : Nat × SubmitInfo => if call.1 = p then call.2.mark? else none) ∘
          fun q => (q, Log.info ⟨level, filter, buf⟩ now))) = [] := by
      rw [List.filterMap_eq_nil_iff]
      intro q _
      show (if q = p then SubmitInfo.mark? ⟨level, filter, buf, now⟩ else none) = none
      rw [h, ite_self]
    rw [hnone, List.append_nil]
  · rfl

/-- The handler at `p` follows the calls up to its level. -/
structure Follows (p : Nat) (level : LogLevel) (e : LogEngine) : Prop where
  once : e.handlers.count p = 1
  same : (e.object p).level = level
  filter : Filter.meets LogAbout.functionCall.bit (e.object p).filter = true
  reaches : level ≤ e.currentLevel
  covers : Filter.meets LogAbout.functionCall.bit e.currentFilter = true

/-- The handler at `p` is told of an event once, if it is attached once. -/
theorem filterMap_handlers (hone : e.handlers.count p = 1) {log : Log} {m : Mark String}
    (hmark : (log.info now).mark? = some m) :
    ((e.handlers.filter fun q => (e.object q).admits log).map fun q => (q, log.info now)).filterMap
        (fun call => if call.1 = p then call.2.mark? else none) =
      if (e.object p).admits log = true then [m] else [] := by
  -- of all the calls of `Submit`, the one to `p`
  have hmine : e.handlers.filter (fun q => q == p) = [p] := by
    rw [List.filter_beq, hone]
    rfl
  have hcalls : ∀ ps : List Nat, (ps.map fun q => (q, log.info now)).filterMap
      (fun call => if call.1 = p then call.2.mark? else none) =
        (ps.filter fun q => q == p).map fun _ => m := by
    intro ps
    induction ps with
    | nil => rfl
    | cons q ps ih =>
      rw [List.map_cons, List.filterMap_cons, ih]
      by_cases hq : q = p
      · simp [hq, hmark]
      · simp [hq]
  have hmine' : (e.handlers.filter fun q => (e.object q).admits log).filter (fun q => q == p) =
      [p].filter fun q => (e.object q).admits log := by
    rw [← hmine, List.filter_filter, List.filter_filter]
    exact List.filter_congr fun q _ => Bool.and_comm ..
  rw [hcalls, hmine', List.filter_singleton]
  by_cases hadmits : (e.object p).admits log = true
  · simp [hadmits]
  · simp [hadmits]

/-- A message of `LogFunctionCall` leaves its mark, once, if the handler's level goes so
far. -/
theorem Follows.callMarks_statement (h : Follows p level e) {level' : LogLevel} {m : Mark String}
    (hmark : SubmitInfo.mark? ⟨level', LogAbout.functionCall.bit, buf, now⟩ = some m) :
    (e.statement level' LogAbout.functionCall.bit buf now).callMarks p =
      e.callMarks p ++ if level' ≤ level then [m] else [] := by
  unfold LogEngine.statement LogEngine.submit
  by_cases hrelevant : e.isRelevant level' LogAbout.functionCall.bit = true
  · have hmark : (Log.info ⟨level', LogAbout.functionCall.bit, buf⟩ now).mark? = some m := hmark
    have hadmits : (e.object p).admits ⟨level', LogAbout.functionCall.bit, buf⟩ = true ↔
        level' ≤ level := by
      rw [LogEventHandler.admits, decide_eq_true_eq, h.same]
    rw [if_pos hrelevant, doSubmit_eq]
    unfold LogEngine.callMarks
    dsimp only
    rw [List.filterMap_append, filterMap_handlers h.once hmark]
    simp only [hadmits]
  -- what the engine does not let through is nothing the handler wants
  · have hless : ¬level' ≤ level := fun hle =>
      hrelevant (isRelevant_iff.mpr ⟨le_trans hle h.reaches, h.covers⟩)
    rw [if_neg hrelevant, if_neg hless, List.append_nil]

/-! ## What is kept -/

/-- A statement changes nothing of this. -/
theorem Follows.statement (h : Follows p level e) (level' : LogLevel) (filter : Filter)
    (buf : String) (now : Int) : Follows p level (e.statement level' filter buf now) := by
  obtain ⟨submitted, heq⟩ := statement_eq (e := e) level' filter buf now
  rw [heq]
  exact ⟨h.once, h.same, h.filter, h.reaches, h.covers⟩

/-- Recomputing the cache does not lose the handler. -/
theorem Follows.update (hone : e.handlers.count p = 1) (hsame : (e.object p).level = level)
    (hfilter : Filter.meets LogAbout.functionCall.bit (e.object p).filter = true) (now : Int) :
    Follows p level (e.updateLevelAndFilter now) := by
  have hp : p ∈ e.handlers := by
    rw [← List.count_pos_iff, hone]
    exact Nat.one_pos
  have hlevel : level ≤ (e.handlers.foldl e.gather (.fatal, 0)).1 := by
    rw [← hsame]
    exact (gather_level e.handlers (.fatal, 0)).2 p hp
  have hmeets : Filter.meets LogAbout.functionCall.bit
      (e.handlers.foldl e.gather (.fatal, 0)).2 = true :=
    (gather_meets _ e.handlers (.fatal, 0)).mpr (Or.inr ⟨p, hp, hfilter⟩)
  have hcache : Follows p level { e with
      currentLevel := (e.handlers.foldl e.gather (.fatal, 0)).1,
      currentFilter := (e.handlers.foldl e.gather (.fatal, 0)).2 } :=
    ⟨hone, hsame, hfilter, hlevel, hmeets⟩
  exact hcache.statement _ _ _ _

/-- An event about `LA_GENERAL` tells of no call. -/
theorem mark_general (level : LogLevel) (buf : String) (now : Int) :
    SubmitInfo.mark? ⟨level, LogAbout.general.bit, buf, now⟩ = none := by
  have hother : LogAbout.general.bit ≠ LogAbout.functionCall.bit := by decide
  exact if_neg hother

/-- `AddHandler` tells of no call. -/
theorem callMarks_addHandler (q : Nat) (now now' : Int) :
    (e.addHandler q now now').callMarks p = e.callMarks p := by
  unfold LogEngine.addHandler LogEngine.updateLevelAndFilter
  dsimp only
  rw [callMarks_statement_none (mark_general _ _ _)]
  show (LogEngine.statement _ _ _ _ _).callMarks p = _
  rw [callMarks_statement_none (mark_general _ _ _)]
  rfl

/-- Behind `AddHandler` a handler that is attached once follows the calls, be it this
one or another that was added. -/
theorem follows_addHandler {q : Nat} (hone : (e.handlers ++ [q]).count p = 1)
    (hfilter : Filter.meets LogAbout.functionCall.bit (e.object p).filter = true) (now now' : Int) :
    Follows p (e.object p).level (e.addHandler q now now') := by
  obtain ⟨submitted, heq⟩ := statement_eq (e := { e with handlers := e.handlers ++ [q] }) .debug
    LogAbout.general.bit ("Added log-handler \"" ++ (e.object q).name ++ "\".") now
  unfold LogEngine.addHandler
  dsimp only
  rw [heq]
  exact Follows.update (e := { e with handlers := e.handlers ++ [q], submitted }) hone rfl
    hfilter now'

/-- Attaching another one changes nothing. -/
theorem Follows.addHandler (h : Follows p level e) {q : Nat} (hq : q ≠ p) (now now' : Int) :
    Follows p level (e.addHandler q now now') := by
  have hone : (e.handlers ++ [q]).count p = 1 := by
    rw [List.count_append, h.once]
    simp [hq]
  rw [← h.same]
  exact follows_addHandler hone h.filter now now'

/-- Another one's level is its own. -/
theorem Follows.setLevel (h : Follows p level e) {q : Nat} (hq : q ≠ p) (level' : LogLevel) :
    Follows p level (e.setLevel q level') := by
  have hother : ¬p = q := fun heq => hq heq.symm
  refine ⟨h.once, ?_, ?_, h.reaches, h.covers⟩
  · rw [setLevel_level, if_neg hother]
    exact h.same
  · rw [setLevel_filter]
    exact h.filter

/-! ## The calls -/

/-- **What one piece of code tells the handler**: the marks of its calls. -/
theorem Follows.run (h : Follows p level e) {code : Code} (hcode : code.Spares p) :
    Follows p level (code.run e).1 ∧ (code.run e).2 = (code.calls level).2 ∧
      (code.run e).1.callMarks p = e.callMarks p ++ (code.calls level).1.flatten := by
  induction code generalizing e with
  | done | throws => exact ⟨h, rfl, (List.append_nil _).symm⟩
  | logs op rest ih =>
    cases op with
    | addHandler q now now' =>
      obtain ⟨hq, hrest⟩ := hcode
      obtain ⟨hfollows, hends, hmarks⟩ := ih (h.addHandler hq now now') hrest
      exact ⟨hfollows, hends, hmarks.trans (by rw [callMarks_addHandler]; rfl)⟩
    | setLevel q level' =>
      obtain ⟨hq, hrest⟩ := hcode
      exact ih (h.setLevel hq level') hrest
    | statement level' filter buf now =>
      obtain ⟨hnone, hrest⟩ := hcode
      obtain ⟨hfollows, hends, hmarks⟩ := ih (h.statement level' filter buf now) hrest
      exact ⟨hfollows, hends, hmarks.trans (by rw [callMarks_statement_none hnone]; rfl)⟩
  | call f now now' body rest ihbody ihrest =>
    obtain ⟨hbody, hrest⟩ := hcode
    have hentered := h.callMarks_statement (mark_entering f now)
    obtain ⟨hinside, hends, hmarks⟩ := ihbody (h.statement f.level LogAbout.functionCall.bit
      ("Entering: " ++ f.place) now) hbody
    have hleft := hinside.callMarks_statement (mark_leaving f now')
    have hfollows := hinside.statement f.level LogAbout.functionCall.bit
      ("Leaving: " ++ f.place) now'
    -- the call itself, with what is inside it
    have hcall : ((body.run (e.entering f now)).1.leaving f now').callMarks p =
        e.callMarks p ++ (if f.level ≤ level then Forest.node f.place (body.calls level).1 .nil
          else (body.calls level).1).flatten := by
      refine hleft.trans ?_
      rw [hmarks, hentered]
      by_cases hlevel : f.level ≤ level
      · simp [hlevel, Forest.flatten]
      · simp [hlevel]
    unfold Code.run Code.calls
    dsimp only
    have hends' : (body.run (e.entering f now)).2 = (body.calls level).2 := hends
    rw [hends']
    by_cases hreturns : (body.calls level).2 = true
    · rw [if_pos hreturns, if_pos hreturns]
      obtain ⟨hfollows', hends'', hmarks'⟩ := ihrest hfollows hrest
      refine ⟨hfollows', hends'', hmarks'.trans ?_⟩
      rw [Forest.flatten_append, ← List.append_assoc]
      exact congrArg (· ++ _) hcall
    · rw [if_neg hreturns, if_neg hreturns]
      exact ⟨hfollows, rfl, hcall⟩
  | tryCatch body rest ihbody ihrest =>
    obtain ⟨hbody, hrest⟩ := hcode
    obtain ⟨hinside, -, hmarks⟩ := ihbody h hbody
    obtain ⟨hfollows, hends, hmarks'⟩ := ihrest hinside hrest
    refine ⟨hfollows, hends, hmarks'.trans ?_⟩
    rw [hmarks, List.append_assoc, ← Forest.flatten_append]
    rfl

/-- **A trace of function calls can be read.** Attach a handler for `LA_FUNCTION_CALL`
to any engine that does not have it yet, and let a program run: functions that
report their calls, return or are left by exceptions, report other things, and
attach other handlers. The messages of `LogFunctionCall` that the handler gets,
read as brackets, are the calls up to its level, each inside the one that made
it. -/
theorem calls_read_back (hnew : p ∉ e.handlers)
    (hfilter : Filter.meets LogAbout.functionCall.bit (e.object p).filter = true) {code : Code}
    (hcode : code.Spares p) (now now' : Int) :
    ∃ ms, (code.run (e.addHandler p now now')).1.callMarks p = e.callMarks p ++ ms ∧
      readMarks ms [] .nil = some (code.calls (e.object p).level).1 := by
  have hone : (e.handlers ++ [p]).count p = 1 := by
    rw [List.count_append, List.count_eq_zero.mpr hnew]
    simp
  have hfollows := follows_addHandler hone hfilter now now'
  obtain ⟨-, -, hmarks⟩ := hfollows.run hcode
  rw [callMarks_addHandler] at hmarks
  exact ⟨_, hmarks, readMarks_flatten _⟩

/-- `Open` calls `Connect`, which throws, and then `Retry` is called. -/
def reconnect : Code :=
  .tryCatch (.call ⟨"Open", 12, "db.cpp", .trace3⟩ 0 3
      (.call ⟨"Connect", 30, "db.cpp", .trace3⟩ 1 2 .throws .done) .done)
    (.call ⟨"Retry", 47, "db.cpp", .trace3⟩ 4 5 .done .done)

/-- An engine in a program whose handlers are for function calls. -/
def tracing : LogEngine := { object := fun _ => ⟨"trace", .trace4, LogAbout.functionCall.bit⟩ }

theorem calls_read_back_thrown : ∃ ms : List (Mark String),
    (reconnect.run (tracing.addHandler 0 0 0)).1.callMarks 0 = ms ∧
    readMarks ms [] .nil = some (.node "Open db.cpp 12" (.node "Connect db.cpp 30" .nil .nil)
      (.node "Retry db.cpp 47" .nil .nil)) := by
  have hnew : 0 ∉ tracing.handlers := List.not_mem_nil
  have hcode : reconnect.Spares 0 := ⟨⟨⟨trivial, trivial⟩, trivial⟩, trivial, trivial⟩
  obtain ⟨ms, hmarks, hread⟩ := calls_read_back hnew (by decide) hcode 0 0
  exact ⟨ms, hmarks, hread.trans (by decide)⟩

end Warlib.Logging
