import Mathlib.Order.Basic
import Mathlib.Order.Lattice
import Mathlib.Order.Defs.LinearOrder
import Warlib.Machine.Lts

/-!
# `war::log` — events, handlers and the engine

What `WarLog.h` and `WarLog.cpp` do between a `LOG_*` statement and the call
of `LogEventHandler::Submit`: the test the macro makes, the delivery loop, and
the operations that change the handlers or the cache the test reads.

Mirroring notes:

* Handlers are objects shared by pointer: `object` is the memory they live in,
  `handlers` is the vector `handlers_` of the addresses attached. The same
  object may be attached twice; nothing in the source looks for it.
* `LogEventHandler::Submit` is an interface; what a handler does with the event
  is its own. A call is recorded in `submitted`.
* An engine is alive in every state: `instance_` is set, so the assertions in
  `Submit` and `GetInstance` have no counterpart. Its destructor puts the
  statics back to what they are before any engine exists.
* One operation is in progress at a time here; `WAR_LOCK` has no counterpart.
* `now` stands for the reading of `system_clock`, in ticks since the epoch.
-/

namespace Warlib.Logging

open Warlib.Machine

/-! ## Levels and filters -/

/-- `enum LogLevel`. -/
inductive LogLevel
  | fatal
  | error
  | warning
  | info
  | notice
  | debug
  | trace1
  | trace2
  | trace3
  | trace4
  deriving DecidableEq, Repr

/-- The value of the enumerator; C++ compares levels by it. -/
def LogLevel.val : LogLevel → Nat
  | .fatal => 0
  | .error => 1
  | .warning => 2
  | .info => 3
  | .notice => 4
  | .debug => 5
  | .trace1 => 6
  | .trace2 => 7
  | .trace3 => 8
  | .trace4 => 9

theorem LogLevel.val_injective : Function.Injective LogLevel.val := by
  intro a b h
  cases a <;> cases b <;> first | rfl | exact absurd h (by decide)

instance : LinearOrder LogLevel := LinearOrder.lift' LogLevel.val LogLevel.val_injective

/-- `GetLevelName`. -/
def getLevelName : LogLevel → String
  | .fatal => "FATAL"
  | .error => "ERROR"
  | .warning => "WARN"
  | .info => "INFO"
  | .notice => "NOTICE"
  | .debug => "DEBUG"
  | .trace1 => "TRACE1"
  | .trace2 => "TRACE2"
  | .trace3 => "TRACE3"
  | .trace4 => "TRACE4"

/-- `filter_t`, an `unsigned int`: one bit for each matter. -/
abbrev Filter := BitVec 32

/-- `enum LogAbout`. -/
inductive LogAbout
  | general
  | security
  | transfer
  | auth
  | io
  | network
  | threads
  | ipc
  | stats
  | functionCall
  deriving DecidableEq, Repr

/-- The value of the enumerator. -/
def LogAbout.bit : LogAbout → Filter
  | .general => 0x001
  | .security => 0x002
  | .transfer => 0x004
  | .auth => 0x008
  | .io => 0x010
  | .network => 0x020
  | .threads => 0x040
  | .ipc => 0x080
  | .stats => 0x100
  | .functionCall => 0x200

/-- `(a & b) != 0`: the filters have a matter in common. -/
def Filter.meets (a b : Filter) : Bool := a &&& b != 0

theorem Filter.meets_iff {a b : Filter} : Filter.meets a b = true ↔ a &&& b ≠ 0 := by
  simp [Filter.meets]

/-- A union is met when a part is. -/
theorem Filter.meets_or {f a b : Filter} :
    Filter.meets f (a ||| b) = true ↔ Filter.meets f a = true ∨ Filter.meets f b = true := by
  have hzero : f &&& a ||| f &&& b = 0 ↔ f &&& a = 0 ∧ f &&& b = 0 := BitVec.or_eq_zero_iff
  rw [Filter.meets_iff, Filter.meets_iff, Filter.meets_iff, BitVec.and_or_distrib_left, ne_eq,
    hzero, not_and_or]

/-- Nothing meets the empty filter. -/
theorem Filter.meets_zero (f : Filter) : Filter.meets f 0 = false := by
  simp [Filter.meets]

/-- A filter that is not empty meets itself. -/
theorem Filter.meets_self {f : Filter} (h : f ≠ 0) : Filter.meets f f = true := by
  rw [Filter.meets_iff, BitVec.and_self]
  exact h

/-- One `ADD(name)` of `WriteFilter`, on the text so far and `virgin`. -/
def addName (filter hide : Filter) (acc : String × Bool) (name : String × LogAbout) :
    String × Bool :=
  if filter &&& (name.2.bit &&& ~~~hide) == name.2.bit then
    (acc.1 ++ (if acc.2 then "" else "|") ++ name.1, false)
  else acc

/-- `WriteFilter(out, filter, hide)`. -/
def writeFilter (filter hide : Filter) : String :=
  let names := [("GENERAL", LogAbout.general), ("SECURITY", .security), ("TRANSFER", .transfer),
    ("AUTH", .auth), ("IO", .io), ("NETWORK", .network), ("THREADS", .threads), ("IPC", .ipc),
    ("STATS", .stats), ("FUNCTION_CALL", .functionCall)]
  let written := names.foldl (addName filter hide) ("", true)
  if written.2 then written.1 else written.1 ++ " "

/-! ## Events, handlers, the engine -/

/-- `Log`: one log event, as it is handed to `LogEngine::Submit`. -/
structure Log where
  level : LogLevel
  filter : Filter
  buf : String
  deriving DecidableEq, Repr

/-- `LogEventHandler::SubmitInfo`. -/
structure SubmitInfo where
  level : LogLevel
  filter : Filter
  buf : String
  time : Int
  deriving DecidableEq, Repr

/-- What the handlers are told about an event. -/
def Log.info (log : Log) (now : Int) : SubmitInfo := ⟨log.level, log.filter, log.buf, now⟩

/-- `LogEventHandler`. -/
structure LogEventHandler where
  name : String
  level : LogLevel
  filter : Filter
  deriving DecidableEq, Repr

/-- The log engine with its statics, and the handler objects of the program. -/
structure LogEngine where
  object : Nat → LogEventHandler
  handlers : List Nat := []
  currentLevel : LogLevel := .fatal
  currentFilter : Filter := 0
  submitted : List (Nat × SubmitInfo) := []

variable (e : LogEngine)

/-- `h->Submit(si)` for the handler at `p`. -/
def LogEngine.callSubmit (p : Nat) (si : SubmitInfo) : LogEngine :=
  { e with submitted := e.submitted ++ [(p, si)] }

/-- `DoSubmit(Log& log)`. -/
def LogEngine.doSubmit (log : Log) (now : Int) : LogEngine :=
  let si := log.info now
  e.handlers.foldl
    (fun e p => if si.level ≤ (e.object p).level then e.callSubmit p si else e) e

/-- `LogEngine::Submit(Log& log)`. -/
def LogEngine.submit (log : Log) (now : Int) : LogEngine := e.doSubmit log now

/-- `IsRelevant(level, filter)`. -/
def LogEngine.isRelevant (level : LogLevel) (filter : Filter) : Bool :=
  decide (level ≤ e.currentLevel) && Filter.meets filter e.currentFilter

/-- A `LOG_*` statement: `IsRelevant(level, filter) && Log(level, filter).Get()
<< buf`; the destructor of `Log` submits. -/
def LogEngine.statement (level : LogLevel) (filter : Filter) (buf : String) (now : Int) :
    LogEngine :=
  if e.isRelevant level filter then e.submit ⟨level, filter, buf⟩ now else e

/-- The loop of `UpdateLevelAndFilter`: one handler. -/
def LogEngine.gather (acc : LogLevel × Filter) (p : Nat) : LogLevel × Filter :=
  (if (e.object p).level > acc.1 then (e.object p).level else acc.1, acc.2 ||| (e.object p).filter)

/-- `UpdateLevelAndFilter()`. -/
def LogEngine.updateLevelAndFilter (now : Int) : LogEngine :=
  let (level, filter) := e.handlers.foldl e.gather (.fatal, 0)
  let e := { e with currentLevel := level, currentFilter := filter }
  e.statement .debug LogAbout.general.bit
    ("Log-level is now " ++ getLevelName e.currentLevel ++ " and filter is " ++
      writeFilter e.currentFilter 0 ++ "(" ++ toString e.currentFilter.toNat ++ ")") now

/-- `AddHandler(handler)`; the two readings of the clock are those of its two
log statements. -/
def LogEngine.addHandler (p : Nat) (now now' : Int) : LogEngine :=
  let e := { e with handlers := e.handlers ++ [p] }
  let e := e.statement .debug LogAbout.general.bit
    ("Added log-handler \"" ++ (e.object p).name ++ "\".") now
  e.updateLevelAndFilter now'

/-- `LogEventHandler::SetLevel(level)` on the handler at `p`. -/
def LogEngine.setLevel (p : Nat) (level : LogLevel) : LogEngine :=
  { e with object := fun q => if q = p then { e.object p with level } else e.object q }

/-! ## Histories -/

/-- What a program does with a live engine. -/
inductive Op
  | addHandler (p : Nat) (now now' : Int)
  | setLevel (p : Nat) (level : LogLevel)
  | statement (level : LogLevel) (filter : Filter) (buf : String) (now : Int)

/-- One operation. -/
def LogEngine.apply : Op → LogEngine
  | .addHandler p now now' => e.addHandler p now now'
  | .setLevel p level => e.setLevel p level
  | .statement level filter buf now => e.statement level filter buf now

/-- A new engine, in a program with these handler objects, and its histories. -/
def engine (object : Nat → LogEventHandler) : Lts LogEngine Op where
  init e := e = { object }
  next e op := some (e.apply op)

end Warlib.Logging
