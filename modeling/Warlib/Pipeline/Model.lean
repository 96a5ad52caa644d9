import Warlib.ErrorHandling
import Warlib.Machine.Threads

/-!
# `war::Pipeline` — the data

What the threads of a process share when they use one constructed
`war::Pipeline` (`WarPipeline.h`), and the program points its functions can
be stopped at. `Step.lean` has the functions themselves.

Mirroring notes:

* `count` and `capacity` are 64-bit words (`std::size_t`), wrap-around
  included. `queue`, `timers`, `workGuard` and `stopped` are what the code
  uses of the `io_context`: the FIFO of handlers ready to run, the pending
  `async_wait`s, the `executor_work_guard` and the flag `stop()` sets.
* A `task_t` is a function and a name; the name is only logged. Logging has
  no effect here. `Task` says which function it is: one the user handed in,
  or the lambda `PostSynchronously` / `PostWithPromise` wraps one into.
* `id` numbers the calls of the entry points that submit something, so that
  two submissions of equal functions stay distinguishable; `nextId` and
  `trace` exist for the statements only and no step reads them to decide
  anything.
* Thread 0 is the worker (`thread_`). The other threads are `client`s. What
  user code does — in a client, in a task function, in the completion of a
  token — is not determined: it may enter any entry point, satisfy a promise
  it was given, return, or (a task function) throw.
-/

namespace Warlib.Pipeline

open Warlib.Machine

/-! ## Tasks, promises, handlers -/

/-- What `task.first()` runs: the user's function of submission `id`, the
lambda of `PostSynchronously`, or the lambda of `PostWithPromise`. -/
inductive Task
  | user (id : Nat)
  | sync (id : Nat)
  | promise (id p : Nat)
  deriving DecidableEq, Repr

/-- The submission a task belongs to. -/
def Task.id : Task → Nat
  | .user id => id
  | .sync id => id
  | .promise id _ => id

@[simp] theorem Task.id_user (id : Nat) : (Task.user id).id = id := rfl

@[simp] theorem Task.id_sync (id : Nat) : (Task.sync id).id = id := rfl

@[simp] theorem Task.id_promise (id p : Nat) : (Task.promise id p).id = id := rfl

/-- `PostSynchronously`'s local promise, or one the user owns. -/
inductive Promise
  | sync (id : Nat)
  | given (p : Nat)
  deriving DecidableEq, Repr

/-- How a function ended, or what a promise was satisfied with. -/
inductive Outcome
  | value
  | exn (e : Exn)
  deriving DecidableEq, Repr

/-- The handlers the pipeline puts on the `io_context`: `ExecTask_` bound by
`Post`, the lambda of the token overload of `Post`, `OnTimer_` bound by
`PostWithTimer`, the lambda of its token overload, and the lambda of `Close`.
`ec` is whether the timer's `error_code` is set, `tok` the completion token. -/
inductive Handler
  | execTask (task : Task)
  | token (task : Task) (tok : Nat)
  | timer (task : Task) (ec : Bool)
  | tokenTimer (task : Task) (tok : Nat) (ec : Bool)
  | stop
  deriving DecidableEq, Repr

/-- A pending `async_wait`, with the completion token if there is one. -/
structure Timer where
  task : Task
  tok : Option Nat
  deriving DecidableEq, Repr

/-- The handler a pending wait becomes when its timer expires (`ec = false`)
or is cancelled (`ec = true`). -/
def Timer.handler (t : Timer) (ec : Bool) : Handler :=
  match t.tok with
  | none => .timer t.task ec
  | some tok => .tokenTimer t.task tok ec

/-- The entry points user code can call. -/
inductive Call
  | post
  | postToken (tok : Nat)
  | postWithPromise (p : Nat)
  | postSynchronously
  | dispatch
  | postWithTimer
  | postWithTimerToken (tok : Nat)
  | close
  deriving DecidableEq, Repr

/-- What user code may do next; `code` lets the pipeline's own code go on. -/
inductive Act
  | code
  | call (c : Call)
  | setPromise (p : Nat) (o : Outcome)
  | ret
  | throw (e : Exn)
  deriving DecidableEq, Repr

/-! ## Program points -/

/-- `Post(task_t &&)`, with `AddingTask` in line: the test of `closing_`,
`++count_ > capacity_`, `--count_; throw`, and `asio::post`. -/
inductive PostPc
  | closing
  | adding
  | undo
  | enqueue
  deriving DecidableEq, Repr

/-- `ExecTask_`: `if (counting) --count_`, the test of `closing_`, the call of
`task.first()`, and what follows it. -/
inductive ExecPc
  | entry
  | closing
  | call
  | running
  deriving DecidableEq, Repr

/-- `PostSynchronously`: the `Dispatch`, its end, and `future.get()`. -/
inductive SyncPc
  | start
  | dispatching
  | waiting
  deriving DecidableEq, Repr

/-- A function that makes one call: before it, and after it. -/
inductive CallPc
  | start
  | after
  deriving DecidableEq, Repr

/-- `PostWithTimer`: the test of `closing_`, and starting the timer. -/
inductive TimerPc
  | closing
  | start
  deriving DecidableEq, Repr

/-- `Close`: the test of `closing_`, posting the handler, setting `closing_`. -/
inductive ClosePc
  | test
  | enqueue
  | set
  deriving DecidableEq, Repr

/-- The handler `Close` posts: the test of `closed_`, setting it, resetting
the work guard, and `io_context::stop()`. -/
inductive StopPc
  | test
  | closed
  | guard
  | stop
  deriving DecidableEq, Repr

/-- A frame: a program point of a function with its live variables. `run` is
`io_context::run()` inside `Pipeline::Run`; `client`, `fn` and `completion`
are user code; the two carriers are the lambdas of `PostSynchronously` and
`PostWithPromise`; the last four are handler bodies. -/
inductive Frame
  | run
  | client
  | fn (id : Nat)
  | completion (tok : Nat)
  | post (pc : PostPc) (task : Task)
  | postToken (task : Task) (tok : Nat)
  | postWithPromise (pc : CallPc) (id p : Nat)
  | postSynchronously (pc : SyncPc) (id : Nat)
  | dispatch (task : Task)
  | postWithTimer (pc : TimerPc) (task : Task)
  | postWithTimerToken (task : Task) (tok : Nat)
  | close (pc : ClosePc)
  | execTask (pc : ExecPc) (task : Task) (counting autoCatch : Bool)
  | syncCarrier (pc : CallPc) (id : Nat)
  | promiseCarrier (pc : CallPc) (id p : Nat)
  | tokenHandler (pc : CallPc) (task : Task) (tok : Nat)
  | onTimer (task : Task) (ec : Bool)
  | tokenTimer (pc : CallPc) (task : Task) (tok : Nat) (ec : Bool)
  | stopHandler (pc : StopPc)
  deriving DecidableEq, Repr

/-! ## What happened -/

/-- Where a task was dismissed because `closing_` was set. -/
inductive Site
  | post
  | dispatch
  | timer
  | exec
  deriving DecidableEq, Repr

/-- Why the worker left `io_context::run()`. -/
inductive RunEnd
  | stopped
  | outOfWork
  | exn (e : Exn)
  deriving DecidableEq, Repr

/-- One entry of the history. `called caller id c q`: user code (the function
of submission `caller`, if it is one) entered `c` as submission `id` while `q` tasks
were queued for immediate processing. `entered` to `finished` are the stages
of `ExecTask_` with its arguments `task` and `counting`; `admitted` means that
`closing_` was read as false. `inlined`: `Dispatch` went on to `ExecTask_` on
the worker. `submitted`: the inner submission of `PostSynchronously` or
`PostWithPromise`, of the lambda `task`, returned normally. -/
inductive Event
  | called (caller : Option Nat) (id : Nat) (c : Call) (queued : Nat)
  | enqueued (h : Handler)
  | rejected (task : Task)
  | dismissed (site : Site) (task : Task)
  | inlined (task : Task)
  | submitted (task : Task)
  | taken (h : Handler)
  | entered (task : Task) (counting : Bool)
  | admitted (task : Task) (counting : Bool)
  | began (task : Task) (counting : Bool)
  | finished (task : Task) (counting : Bool) (o : Outcome)
  | syncEnded (id : Nat) (o : Outcome)
  | completed (tok : Nat) (ec : Bool)
  | closeReturned (onWorker : Bool)
  | ended (why : RunEnd)
  deriving DecidableEq, Repr

/-! ## The shared memory -/

/-- The members of one `Pipeline`, its `io_context`, and the promises. -/
structure Mem where
  name : String
  capacity : BitVec 64
  count : BitVec 64 := 0
  closing : Bool := false
  closed : Bool := false
  workGuard : Bool := true
  stopped : Bool := false
  tasksRun : Int := 0
  queue : List Handler := []
  timers : List Timer := []
  promises : Promise → Option Outcome := fun _ => none
  nextId : Nat := 0
  trace : List Event := []

/-- Record events. -/
@[simp] def Mem.emit (m : Mem) (es : List Event) : Mem := { m with trace := m.trace ++ es }

/-- `boost::asio::post(*io_context_, h)`: to the end of the run queue. -/
@[simp] def Mem.asioPost (m : Mem) (h : Handler) : Mem :=
  { m with queue := m.queue ++ [h], trace := m.trace ++ [.enqueued h] }

/-- The memory once promise `p` holds `o`. -/
@[simp] def Mem.fulfil (m : Mem) (p : Promise) (o : Outcome) : Mem :=
  { m with promises := fun q => if q = p then some o else m.promises q }

/-- `promise.set_value()` / `set_exception(e)`; `none` is the
`std::future_error` thrown when the promise is already satisfied. -/
def Mem.satisfy (m : Mem) (p : Promise) (o : Outcome) : Option Mem :=
  match m.promises p with
  | none => some (m.fulfil p o)
  | some _ => none

/-- Whether a handler is a task queued for immediate processing. -/
@[simp] def Handler.immediate : Handler → Bool
  | .execTask _ => true
  | .token _ _ => true
  | _ => false

/-- The number of tasks queued for immediate processing. -/
def Mem.queued (m : Mem) : Nat := m.queue.countP Handler.immediate

/-- User code enters an entry point: the submission gets its number. -/
@[simp] def Mem.enter (m : Mem) (caller : Option Nat) (c : Call) : Mem :=
  { m with nextId := m.nextId + 1, trace := m.trace ++ [.called caller m.nextId c m.queued] }

/-- What `ExceptionCapacityExceeded` explains. -/
def Mem.outOfCapacity (m : Mem) : Exn :=
  .capacityExceeded ("Out of capicity in Pipeline \"" ++ m.name ++ "\"")

end Warlib.Pipeline
