import Warlib.Pipeline.Model

/-!
# `war::Pipeline` — the functions

Every function of `WarPipeline.cpp` (and the lambdas in `WarPipeline.h`) that
runs between the constructor and the end of the worker, one atomic action on
the shared memory at a time. A function is a Lean function from the memory
and a program point to the memory after the step and what becomes of its
frame (`Next`), so that each can be read next to its source.

Mirroring notes:

* A read or write of an atomic (`closing_`, `closed_`, `count_`) is a step of
  its own; what the code decides from it alone is decided in the same step.
  `++count_` returns the new value, so its comparison is in the same step.
* `boost::asio::post` is one step: it appends to the run queue.
* `io_context::run()` is `run`: it takes the first handler of the queue,
  returns when the context is stopped, and would return for lack of work if
  neither the work guard nor a pending timer kept it.
* `Pipeline::Run` catches what leaves `run()` with `WAR_CATCH_ALL_E` and ends.
* `io_context_` is never null on a constructed pipeline, so the test in
  `Close` has no counterpart.
* The pre-1.70 branch of the token timer is not modelled.
-/

namespace Warlib.Pipeline

open Warlib.Machine

/-- The memory after a step, and what the frame does next. -/
abbrev Result := Mem × Next Frame Exn

/-- `IsPipelineThread()`. -/
def isPipelineThread (i : Nat) : Bool := i == 0

/-! ## Submitting -/

/-- `Post(task_t &&task)`. -/
def post (m : Mem) (task : Task) : PostPc → Result
  | .closing =>
    if m.closing then (m.emit [.dismissed .post task], .ret)
    else (m, .goto (.post .adding task))
  | .adding =>
    -- AddingTask: if (++count_ > capacity_)
    let m := { m with count := m.count + 1 }
    if m.count > m.capacity then (m, .goto (.post .undo task))
    else (m, .goto (.post .enqueue task))
  | .undo =>
    -- AddingTask: { --count_; WAR_THROW_T(ExceptionCapacityExceeded, ...) }
    ({ m with count := m.count - 1 }.emit [.rejected task], .thr m.outOfCapacity)
  | .enqueue => (m.asioPost (.execTask task), .ret)

/-- `Post(const task_t &task, Token &&token)`: the initiation posts the
lambda; nothing is tested and nothing counted. -/
def postToken (m : Mem) (task : Task) (tok : Nat) : Result :=
  (m.asioPost (.token task tok), .ret)

/-- `PostWithPromise(const task_t &task, PromiseT &promise)`. -/
def postWithPromise (m : Mem) (id p : Nat) (ctl : Ctl Exn) : CallPc → Option Result
  | .start => some (m, .call (.postWithPromise .after id p) (.post .closing (.promise id p)))
  | .after =>
    match ctl with
    | .go => none
    | .ret => some (m.emit [.submitted (.promise id p)], .ret)
    | .thr e => some (m, .thr e)

/-- `Dispatch(task_t &&task)`. The test of `closing_` decides with the
thread's identity, which does not change, in one step. -/
def dispatch (i : Nat) (m : Mem) (task : Task) : Result :=
  if m.closing then (m.emit [.dismissed .dispatch task], .ret)
  else if isPipelineThread i then
    (m.emit [.inlined task], .goto (.execTask .entry task false true))
  else (m, .goto (.post .closing task))

/-- `PostSynchronously(const task_t &task)`; `future.get()` blocks while the
promise is not satisfied. -/
def postSynchronously (m : Mem) (id : Nat) (ctl : Ctl Exn) : SyncPc → Option Result
  | .start => some (m, .call (.postSynchronously .dispatching id) (.dispatch (.sync id)))
  | .dispatching =>
    match ctl with
    | .go => none
    | .ret => some (m.emit [.submitted (.sync id)], .goto (.postSynchronously .waiting id))
    | .thr e => some (m.emit [.syncEnded id (.exn e)], .thr e)
  | .waiting =>
    match m.promises (.sync id) with
    | none => none
    | some .value => some (m.emit [.syncEnded id .value], .ret)
    | some (.exn e) => some (m.emit [.syncEnded id (.exn e)], .thr e)

/-- `PostWithTimer(task_t &&task, uint32_t milliSeconds)`. -/
def postWithTimer (m : Mem) (task : Task) : TimerPc → Result
  | .closing =>
    if m.closing then (m.emit [.dismissed .timer task], .ret)
    else (m, .goto (.postWithTimer .start task))
  | .start => ({ m with timers := m.timers ++ [⟨task, none⟩] }, .ret)

/-- `PostWithTimer(const task_t &task, uint32_t milliSeconds, Token &&token)`. -/
def postWithTimerToken (m : Mem) (task : Task) (tok : Nat) : Result :=
  ({ m with timers := m.timers ++ [⟨task, some tok⟩] }, .ret)

/-- `Close()`. -/
def close (i : Nat) (m : Mem) : ClosePc → Result
  | .test =>
    if m.closing then (m.emit [.closeReturned (isPipelineThread i)], .ret)
    else (m, .goto (.close .enqueue))
  | .enqueue => (m.asioPost .stop, .goto (.close .set))
  | .set => ({ m with closing := true }.emit [.closeReturned (isPipelineThread i)], .ret)

/-! ## Executing -/

/-- The function a task runs. -/
def Task.body : Task → Frame
  | .user id => .fn id
  | .sync id => .syncCarrier .start id
  | .promise id p => .promiseCarrier .start id p

/-- `ExecTask_(const task_t &task, bool counting, bool autoCatch)`. -/
def execTask (m : Mem) (task : Task) (counting autoCatch : Bool) (ctl : Ctl Exn) :
    ExecPc → Option Result
  | .entry =>
    let m := if counting then { m with count := m.count - 1 } else m
    some (m.emit [.entered task counting], .goto (.execTask .closing task counting autoCatch))
  | .closing =>
    if m.closing then some (m.emit [.dismissed .exec task], .ret)
    else some (m.emit [.admitted task counting], .goto (.execTask .call task counting autoCatch))
  | .call =>
    some (m.emit [.began task counting],
      .call (.execTask .running task counting autoCatch) task.body)
  | .running =>
    match ctl with
    | .go => none
    | .ret =>
      some ({ m with tasksRun := m.tasksRun + 1 }.emit [.finished task counting .value], .ret)
    | .thr e =>
      -- WAR_CATCH_ALL_E around task.first() when autoCatch is set
      if autoCatch && (handler catchAllE e).isSome then
        some (m.emit [.finished task counting (.exn e)], .ret)
      else some (m.emit [.finished task counting (.exn e)], .thr e)

/-- The lambda of `PostSynchronously`: `set_value` stands inside the `try`, so
its own exception ends up in `set_exception`, which throws again. -/
def syncCarrier (m : Mem) (id : Nat) (ctl : Ctl Exn) : CallPc → Option Result
  | .start =>
    some (m, .call (.syncCarrier .after id) (.execTask .entry (.user id) false false))
  | .after =>
    match ctl with
    | .go => none
    | .ret =>
      match m.satisfy (.sync id) .value with
      | some m => some (m, .ret)
      | none => some (m, .thr .futureError)
    | .thr e =>
      match m.satisfy (.sync id) (.exn e) with
      | some m => some (m, .ret)
      | none => some (m, .thr .futureError)

/-- The lambda of `PostWithPromise`. -/
def promiseCarrier (m : Mem) (id p : Nat) (ctl : Ctl Exn) : CallPc → Option Result
  | .start =>
    some (m, .call (.promiseCarrier .after id p) (.execTask .entry (.user id) false false))
  | .after =>
    match ctl with
    | .go => none
    | .ret => some (m, .ret)
    | .thr e =>
      match m.satisfy (.given p) (.exn e) with
      | some m => some (m, .ret)
      | none => some (m, .thr .futureError)

/-- The lambda of the token overload of `Post`: `self.complete({})` follows
`ExecTask_`. -/
def tokenHandler (m : Mem) (task : Task) (tok : Nat) (ctl : Ctl Exn) : CallPc → Option Result
  | .start => some (m, .call (.tokenHandler .after task tok) (.execTask .entry task true true))
  | .after =>
    match ctl with
    | .go => none
    | .ret => some (m.emit [.completed tok false], .goto (.completion tok))
    | .thr e => some (m, .thr e)

/-- `OnTimer_(timer, task, ec)`. -/
def onTimer (m : Mem) (task : Task) (ec : Bool) : Result :=
  if ec then (m, .ret) else (m, .goto (.execTask .entry task false true))

/-- The lambda of the token overload of `PostWithTimer`: `self.complete(ec)`
follows `OnTimer_`. -/
def tokenTimer (m : Mem) (task : Task) (tok : Nat) (ec : Bool) (ctl : Ctl Exn) :
    CallPc → Option Result
  | .start => some (m, .call (.tokenTimer .after task tok ec) (.onTimer task ec))
  | .after =>
    match ctl with
    | .go => none
    | .ret => some (m.emit [.completed tok ec], .goto (.completion tok))
    | .thr e => some (m, .thr e)

/-- The lambda `Close` posts. -/
def stopHandler (m : Mem) : StopPc → Result
  | .test => if m.closed then (m, .ret) else (m, .goto (.stopHandler .closed))
  | .closed => ({ m with closed := true }, .goto (.stopHandler .guard))
  | .guard => ({ m with workGuard := false }, .goto (.stopHandler .stop))
  | .stop => ({ m with stopped := true }, .ret)

/-- The frame a handler starts in. -/
def Handler.frame : Handler → Frame
  | .execTask task => .execTask .entry task true true
  | .token task tok => .tokenHandler .start task tok
  | .timer task ec => .onTimer task ec
  | .tokenTimer task tok ec => .tokenTimer .start task tok ec
  | .stop => .stopHandler .test

/-- `io_context_->run()` in `Pipeline::Run`, with the `WAR_CATCH_ALL_E` around
it. When it returns, the worker thread ends. -/
def run (m : Mem) (ctl : Ctl Exn) : Option Result :=
  match ctl with
  | .thr e => some (m.emit [.ended (.exn e)], .ret)
  | _ =>
    if m.stopped then some (m.emit [.ended .stopped], .ret)
    else
      match m.queue with
      | h :: q => some ({ m with queue := q }.emit [.taken h], .call .run h.frame)
      | [] =>
        if m.workGuard || !m.timers.isEmpty then none
        else some (m.emit [.ended .outOfWork], .ret)

/-! ## User code -/

/-- The first program point of an entry point. -/
def Call.frame (id : Nat) : Call → Frame
  | .post => .post .closing (.user id)
  | .postToken tok => .postToken (.user id) tok
  | .postWithPromise p => .postWithPromise .start id p
  | .postSynchronously => .postSynchronously .start id
  | .dispatch => .dispatch (.user id)
  | .postWithTimer => .postWithTimer .closing (.user id)
  | .postWithTimerToken tok => .postWithTimerToken (.user id) tok
  | .close => .close .test

/-- User code in frame `f` enters an entry point or satisfies a promise it
was given; satisfying it again is an error of its own, not of the library. -/
def userStep (m : Mem) (f : Frame) (caller : Option Nat) : Act → Option Result
  | .call c => some (m.enter caller c, .call f (c.frame m.nextId))
  | .setPromise p o => some ((m.satisfy (.given p) o).getD m, .goto f)
  | _ => none

/-! ## The machine -/

/-- One step of the top frame of thread `i`. -/
def frameStep (i : Nat) (a : Act) (ctl : Ctl Exn) (m : Mem) : Frame → Option Result
  | .client => userStep m .client none a
  | .fn id =>
    match a with
    | .ret => some (m, .ret)
    | .throw e => some (m, .thr e)
    | a => userStep m (.fn id) (some id) a
  | .completion tok =>
    match a with
    | .ret => some (m, .ret)
    | a => userStep m (.completion tok) none a
  | f =>
    match a, f with
    | .code, .run => run m ctl
    | .code, .post pc task => some (post m task pc)
    | .code, .postToken task tok => some (postToken m task tok)
    | .code, .postWithPromise pc id p => postWithPromise m id p ctl pc
    | .code, .postSynchronously pc id => postSynchronously m id ctl pc
    | .code, .dispatch task => some (dispatch i m task)
    | .code, .postWithTimer pc task => some (postWithTimer m task pc)
    | .code, .postWithTimerToken task tok => some (postWithTimerToken m task tok)
    | .code, .close pc => some (close i m pc)
    | .code, .execTask pc task counting autoCatch => execTask m task counting autoCatch ctl pc
    | .code, .syncCarrier pc id => syncCarrier m id ctl pc
    | .code, .promiseCarrier pc id p => promiseCarrier m id p ctl pc
    | .code, .tokenHandler pc task tok => tokenHandler m task tok ctl pc
    | .code, .onTimer task ec => some (onTimer m task ec)
    | .code, .tokenTimer pc task tok ec => tokenTimer m task tok ec ctl pc
    | .code, .stopHandler pc => some (stopHandler m pc)
    | _, _ => none

/-- The memory once the `k`-th pending wait, `t`, is over: its handler is ready
to run. -/
@[simp] def Mem.expire (m : Mem) (k : Nat) (t : Timer) (ec : Bool) : Mem :=
  { m with timers := m.timers.eraseIdx k }.asioPost (t.handler ec)

/-- The `k`-th pending timer expires (`ec = false`) or is cancelled. -/
def expire (e : Nat × Bool) (m : Mem) : Option Mem :=
  m.timers[e.1]?.map fun t => m.expire e.1 t e.2

/-- The pipeline as a program over `Mem`. -/
def program : Program Mem Frame Exn Act (Nat × Bool) where
  step := frameStep
  env := expire

/-- The shared memory and all threads; thread 0 is the worker. -/
abbrev State := Pool Mem Frame Exn

/-- What happens next. -/
abbrev Step := Label Act (Nat × Bool)

/-- A constructed pipeline: the worker is in `run()`, `clients` other threads
exist. -/
def initial (name : String) (capacity : BitVec 64) (clients : Nat) : State where
  mem := { name, capacity }
  threads := ⟨.go, [.run]⟩ :: List.replicate clients ⟨.go, [.client]⟩

/-- The objects in memory a state needs at least: one for each handler in the
run queue and one for each activation record. -/
def objects (s : State) : Nat := s.mem.queue.length + tally (fun _ => 1) s.threads

/-- Objects of a process have distinct 64-bit addresses. -/
def Fits (s : State) : Prop := objects s < 2 ^ 64

instance (s : State) : Decidable (Fits s) := inferInstanceAs (Decidable (_ < _))

/-- The pipeline under any number of clients: a step leads to states that fit
into the address space. -/
def machine (name : String) (capacity : BitVec 64) (clients : Nat) : Lts State Step where
  init s := s = initial name capacity clients ∧ Fits s
  next s l := (program.next s l).filter fun s' => decide (Fits s')

end Warlib.Pipeline
