import Warlib.Logging.Format
import Warlib.Machine.Threads

/-!
# `war::log` — the engine and its threads

The functions of `LogEngine` once more, now with `WAR_LOCK` and for any number
of threads: each function is a sequence of program points, and a step of a
thread is one access to what the threads share. `Model.lean` has the same
functions as they are when nobody else is about.

Mirroring notes:

* `lock` is the thread that holds `lock_`; `WAR_LOCK` waits until there is
  none. `LogEngine` is the engine of `Model.lean`.
* `current_level_` and `current_filter_` are read without the lock by
  `IsRelevant` and by the statement in `UpdateLevelAndFilter`; each read and
  each write is a step.
* `Submit` of a handler writes its record one character after the other, so
  that two of them could be seen to overlap. What a handler writes for an
  event is `record`; for the handlers of the library it is `recordText`.
* `clock` is what `system_clock::now()` would read; it may be set to anything
  at any time.
* User code (`client`) may submit a `Log`, execute a log statement, or add a
  handler, and never ends. Levels of handlers are left alone.
* `id` numbers the calls of `Submit`; `nextId` and `trace` exist for the
  statements only.
* What `DoSubmit` does when something throws (`std::terminate`) is not
  modelled.
-/

namespace Warlib.Logging

open Warlib.Machine

/-- The handler objects of a program, what each of them writes for an event,
and the ids of its threads. -/
structure Setting where
  object : Nat → LogEventHandler
  record : Nat → Delivery → List Char
  threadId : Nat → List Char

/-! ## Program points -/

/-- What user code may do next; `code` lets the engine's own code go on. -/
inductive Act
  | code
  | submit (log : Log)
  | statement (level : LogLevel) (filter : Filter) (buf : String)
  | addHandler (p : Nat)
  deriving DecidableEq, Repr

/-- What a log statement streams: a text, or the cache (`filters` is the text
already made of the filter), and what of it has been read. -/
inductive Message
  | text (buf : String)
  | cache (filters : String)
  | cacheLevel (filters : String) (level : LogLevel)
  deriving DecidableEq, Repr

/-- A `LOG_*` statement: the two tests of `IsRelevant`, then the text. -/
inductive StatementPc
  | level
  | filter
  | write
  deriving DecidableEq, Repr

/-- `DoSubmit`: making `si`, the lock, the loop over the handlers from the
`k`th, and the end of the lock. -/
inductive SubmitPc
  | build (log : Log)
  | lock (si : SubmitInfo)
  | loop (si : SubmitInfo) (k : Nat)
  | unlock
  deriving DecidableEq, Repr

/-- `AddHandler`: the critical section, the log statement, the call of
`UpdateLevelAndFilter`, and its end. -/
inductive AddPc
  | lock
  | push
  | unlock
  | added
  | update
  | done
  deriving DecidableEq, Repr

/-- `UpdateLevelAndFilter`: the lock, the loop with `level` and `filter`, the
two assignments, the end of the lock, and `WriteFilter`. -/
inductive UpdatePc
  | lock
  | gather (k : Nat) (acc : LogLevel × Filter)
  | level (acc : LogLevel × Filter)
  | filter (acc : LogLevel × Filter)
  | unlock
  | filters
  deriving DecidableEq, Repr

/-- One call of a handler's `Submit`: the `k`th handler attached, the object
`p`, for the event `id`. -/
structure Entry where
  k : Nat
  p : Nat
  id : Nat
  info : SubmitInfo
  thread : Nat
  deriving DecidableEq, Repr

/-- A frame: a program point of a function with its live variables; `rest` is
what `Submit` has still to write. -/
inductive Frame
  | client
  | statement (pc : StatementPc) (level : LogLevel) (filter : Filter) (message : Message)
  | doSubmit (pc : SubmitPc) (id : Nat)
  | addHandler (pc : AddPc) (p : Nat)
  | updateLevelAndFilter (pc : UpdatePc)
  | handlerSubmit (entry : Entry) (rest : List Char)
  deriving DecidableEq, Repr

/-! ## The shared memory -/

/-- One entry of the history: a call of `Submit` by a thread; the moment
`DoSubmit` has the lock; a `push_back`; and the two ends of a handler's
`Submit`. -/
inductive Event
  | called (i id : Nat) (log : Log)
  | locked (i id : Nat) (si : SubmitInfo)
  | inserted (p : Nat)
  | began (entry : Entry)
  | finished (entry : Entry)
  deriving DecidableEq, Repr

/-- What the threads share. -/
structure Shared where
  engine : LogEngine
  lock : Option Nat := none
  clock : Int := 0
  output : Nat → List Char := fun _ => []
  nextId : Nat := 0
  trace : List Event := []

variable (m : Shared)

/-- Record events. -/
@[simp] def Shared.emit (es : List Event) : Shared := { m with trace := m.trace ++ es }

/-- `h->Submit(si)` begins. -/
@[simp] def Shared.deliver (entry : Entry) : Shared :=
  { m with engine := m.engine.callSubmit entry.p entry.info, trace := m.trace ++ [.began entry] }

/-- One more character in the output of the object `p`. -/
@[simp] def Shared.write (p : Nat) (c : Char) : Shared :=
  { m with output := fun q => if q = p then m.output p ++ [c] else m.output q }

/-- What a handler is told, and by which thread. -/
def Setting.delivery (set : Setting) (entry : Entry) : Delivery :=
  ⟨entry.info, set.threadId entry.thread⟩

/-! ## The functions -/

/-- The result of a step: the memory and what becomes of the frame. No
function modelled here ends by an exception. -/
abbrev Result := Shared × Next Frame Empty

/-- A call of `Submit`. -/
def submitCall (i : Nat) (log : Log) : Shared × Frame :=
  ({ m with nextId := m.nextId + 1, trace := m.trace ++ [.called i m.nextId log] },
    .doSubmit (.build log) m.nextId)

/-- User code. -/
def clientStep (i : Nat) : Act → Option Result
  | .code => none
  | .submit log =>
    let (m, frame) := submitCall m i log
    some (m, .call .client frame)
  | .statement level filter buf => some (m, .call .client (.statement .level level filter (.text buf)))
  | .addHandler p => some (m, .call .client (.addHandler .lock p))

/-- A `LOG_*` statement. -/
def statementStep (i : Nat) (level : LogLevel) (filter : Filter) (message : Message) :
    StatementPc → Result
  | .level =>
    if level ≤ m.engine.currentLevel then (m, .goto (.statement .filter level filter message))
    else (m, .ret)
  | .filter =>
    if Filter.meets filter m.engine.currentFilter then
      (m, .goto (.statement .write level filter message))
    else (m, .ret)
  | .write =>
    match message with
    | .text buf =>
      let (m, frame) := submitCall m i ⟨level, filter, buf⟩
      (m, .goto frame)
    | .cache filters =>
      (m, .goto (.statement .write level filter (.cacheLevel filters m.engine.currentLevel)))
    | .cacheLevel filters current =>
      (m, .goto (.statement .write level filter
        (.text ("Log-level is now " ++ getLevelName current ++ " and filter is " ++ filters ++ "(" ++
          toString m.engine.currentFilter.toNat ++ ")"))))

/-- `WAR_LOCK` on thread `i`, with what is done once it is taken. -/
def warLock (i : Nat) (es : List Event) (frame : Frame) : Option Result :=
  match m.lock with
  | none => some ({ m with lock := some i }.emit es, .goto frame)
  | some _ => none

/-- `DoSubmit(log)` on thread `i`. -/
def doSubmitStep (set : Setting) (i id : Nat) : SubmitPc → Option Result
  | .build log => some (m, .goto (.doSubmit (.lock (log.info m.clock)) id))
  | .lock si => warLock m i [.locked i id si] (.doSubmit (.loop si 0) id)
  | .loop si k =>
    match m.engine.handlers[k]? with
    | some p =>
      if si.level ≤ (m.engine.object p).level then
        let entry := ⟨k, p, id, si, i⟩
        some (m.deliver entry, .call (.doSubmit (.loop si (k + 1)) id)
          (.handlerSubmit entry (set.record p (set.delivery entry))))
      else some (m, .goto (.doSubmit (.loop si (k + 1)) id))
    | none => some (m, .goto (.doSubmit .unlock id))
  | .unlock => some ({ m with lock := none }, .ret)

/-- `Submit(si)` of a handler, with `rest` left to write. -/
def handlerSubmitStep (entry : Entry) : List Char → Result
  | c :: rest => (m.write entry.p c, .goto (.handlerSubmit entry rest))
  | [] => (m.emit [.finished entry], .ret)

/-- `AddHandler(handler)` on thread `i`. -/
def addHandlerStep (i p : Nat) : AddPc → Option Result
  | .lock => warLock m i [] (.addHandler .push p)
  | .push =>
    some ({ m with engine := { m.engine with handlers := m.engine.handlers ++ [p] } }.emit
      [.inserted p], .goto (.addHandler .unlock p))
  | .unlock => some ({ m with lock := none }, .goto (.addHandler .added p))
  | .added =>
    some (m, .call (.addHandler .update p) (.statement .level .debug LogAbout.general.bit
      (.text ("Added log-handler \"" ++ (m.engine.object p).name ++ "\"."))))
  | .update => some (m, .call (.addHandler .done p) (.updateLevelAndFilter .lock))
  | .done => some (m, .ret)

/-- `UpdateLevelAndFilter()` on thread `i`. -/
def updateLevelAndFilterStep (i : Nat) : UpdatePc → Option Result
  | .lock => warLock m i [] (.updateLevelAndFilter (.gather 0 (.fatal, 0)))
  | .gather k acc =>
    match m.engine.handlers[k]? with
    | some p => some (m, .goto (.updateLevelAndFilter (.gather (k + 1) (m.engine.gather acc p))))
    | none => some (m, .goto (.updateLevelAndFilter (.level acc)))
  | .level acc =>
    some ({ m with engine := { m.engine with currentLevel := acc.1 } },
      .goto (.updateLevelAndFilter (.filter acc)))
  | .filter acc =>
    some ({ m with engine := { m.engine with currentFilter := acc.2 } },
      .goto (.updateLevelAndFilter .unlock))
  | .unlock => some ({ m with lock := none }, .goto (.updateLevelAndFilter .filters))
  | .filters =>
    some (m, .goto (.statement .level .debug LogAbout.general.bit
      (.cache (writeFilter m.engine.currentFilter 0))))

/-! ## The machine -/

/-- One step of the top frame of thread `i`. -/
def frameStep (set : Setting) (i : Nat) (a : Act) (m : Shared) : Frame → Option Result
  | .client => clientStep m i a
  | .statement pc level filter message =>
    if a = .code then some (statementStep m i level filter message pc) else none
  | .doSubmit pc id => if a = .code then doSubmitStep m set i id pc else none
  | .addHandler pc p => if a = .code then addHandlerStep m i p pc else none
  | .updateLevelAndFilter pc => if a = .code then updateLevelAndFilterStep m i pc else none
  | .handlerSubmit entry rest => if a = .code then some (handlerSubmitStep m entry rest) else none

/-- The threads and the clock. -/
def program (set : Setting) : Program Shared Frame Empty Act Int where
  step i a _ m f := frameStep set i a m f
  env now m := some { m with clock := now }

abbrev State := Pool Shared Frame Empty

abbrev Step := Label Act Int

/-- A new engine, and `n` threads in user code. -/
def initial (set : Setting) (n : Nat) : State :=
  ⟨{ engine := { object := set.object } }, List.replicate n ⟨.go, [.client]⟩⟩

/-- The engine with its threads, as a transition system. -/
def machine (set : Setting) (n : Nat) : Lts State Step where
  init s := s = initial set n
  next := (program set).next

end Warlib.Logging
