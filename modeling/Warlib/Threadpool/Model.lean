import Warlib.Pipeline.Lifetime

/-!
# `war::Threadpool`

A pool of pipelines (`WarThreadpool.cpp`), for any number of threads. The
pipelines are those of `Pipeline/Lifetime.lean`, from their constructors on;
the pool's own functions are sequences of program points on what its threads
share, and a step of a thread is one access to it.

Mirroring notes:

* `capacity_` and `round_robin_next_thread_` are `unsigned`: 32-bit words, and
  `++` wraps around. `maxPerThreadQueueCapacity` becomes a `size_t`.
* Thread `i` of the pool is client `i + 1` of every pipeline. The first `users`
  threads are those of the program; `tasks` more stand for the tasks that use
  the pool, wherever they run. Their workers are in user code meanwhile; which
  worker is kept waiting by which of them is said where it matters
  (`Deadlock.lean`).
* `calling` and `inside` are a call of an entry point of one pipeline; what
  happens inside is a step of that pipeline, like what its worker and its
  timers do, and belongs to the environment.
* `lock_guard<mutex> lock(close_mutex_)` is `closeMutex`, the thread that
  holds it. The test of `closed_` in `JoinAll` only logs.
* `WaitUntilClosed` is `JoinAll`; the destructor is `Close`, then `JoinAll`.
  Nobody else is inside a function of the pool when the destructor begins,
  and nobody enters one afterwards, save tasks.
* The pipelines are constructed one after the other. If one constructor throws,
  there is no pool to use.
* `selected` exists for the statements only.
-/

namespace Warlib.Threadpool

open Warlib.Machine Warlib.Pipeline

/-- What the constructor is given and what `hardware_concurrency()` says, and
who uses the pool. -/
structure Setting where
  numThreads : BitVec 32
  hardwareConcurrency : BitVec 32 := 0
  maxPerThreadQueueCapacity : BitVec 32 := 1024
  users : Nat
  tasks : Nat := 0

/-- `capacity_`. -/
def Setting.capacity (S : Setting) : BitVec 32 :=
  if S.numThreads > 0 then S.numThreads
  else if 2 < S.hardwareConcurrency - 1 then S.hardwareConcurrency - 1
  else 2

/-- The threads that use the pool. -/
def Setting.threads (S : Setting) : Nat := S.users + S.tasks

/-- `to_string(i)` in the name of the `k`th pipeline. -/
def Setting.name (k : Nat) : String := "Pool-worker_" ++ toString k

/-- The `k`th pipeline. -/
def Setting.pipeline (S : Setting) (k : Nat) : Lts Lifetime Turn :=
  lifetime (Setting.name k) (S.maxPerThreadQueueCapacity.setWidth 64) S.threads

/-! ## Program points -/

/-- What user code may do next; `code` lets the pool's own code go on. `use k a` is
what it does with the `k`th pipeline, which it has got from the pool. -/
inductive Act
  | code
  | getAnyPipeline
  | use (k : Nat) (a : Pipeline.Act)
  | post
  | postWithTimer
  | close
  | waitUntilClosed
  | destroy
  deriving DecidableEq, Repr

/-- `Close`: the test of `closed_`, the loop from the `k`th pipeline on, and
setting `closed_`. -/
inductive ClosePc
  | test
  | loop (k : Nat)
  | set
  deriving DecidableEq, Repr

/-- `JoinAll`: the lock, the test of `finished_`, the loop from the `k`th pipeline
on, inside its `WaitUntilClosed`, setting `finished_`, the end of the lock. -/
inductive JoinPc
  | lock
  | test
  | loop (k : Nat)
  | waiting (k : Nat)
  | finish
  | unlock
  deriving DecidableEq, Repr

/-- A frame: a program point of a function with its live variables. `after` is
what is called on the pipeline `GetAnyPipeline` returns. -/
inductive Frame
  | client
  | getAnyPipeline (after : Option Call)
  | calling (k : Nat) (a : Pipeline.Act)
  | inside (k : Nat)
  | close (pc : ClosePc)
  | joinAll (pc : JoinPc)
  | destructor
  deriving DecidableEq, Repr

/-! ## The shared memory -/

/-- The members of a `Threadpool`. -/
structure Mem where
  pool : List Lifetime
  roundRobinNextThread : BitVec 32 := 0
  closed : Bool := false
  finished : Bool := false
  closeMutex : Option Nat := none
  destroying : Bool := false
  selected : List Nat := []

/-- The `k`th pipeline takes a turn. -/
def Mem.turn (S : Setting) (m : Mem) (k : Nat) (t : Turn) : Option Mem :=
  match m.pool[k]? with
  | some p => ((S.pipeline k).next p t).map fun p => { m with pool := m.pool.set k p }
  | none => none

/-- `++round_robin_next_thread_ % capacity_`. -/
def Mem.chosen (S : Setting) (m : Mem) : Nat :=
  ((m.roundRobinNextThread + 1) % S.capacity).toNat

/-- The memory after it. -/
@[simp] def Mem.choose (S : Setting) (m : Mem) : Mem :=
  { m with
    roundRobinNextThread := m.roundRobinNextThread + 1
    selected := m.selected ++ [m.chosen S] }

/-- The constructor has returned. -/
def Mem.constructed (m : Mem) : Bool := m.pool.all fun p => p.ctor == .returned

/-! ## The functions -/

/-- The memory after a step, and what the frame does next. -/
abbrev Result := Mem × Next Frame Exn

/-- `GetAnyPipeline()`, and the call of the entry point on what it returns. -/
def getAnyPipeline (S : Setting) (m : Mem) : Option Call → Result
  | none => (m.choose S, .ret)
  | some c => (m.choose S, .goto (.calling (m.chosen S) (.call c)))

/-- Thread `i` enters an entry point of the `k`th pipeline, or does something else
with it. -/
def calling (S : Setting) (i : Nat) (m : Mem) (k : Nat) (a : Pipeline.Act) : Option Result :=
  (m.turn S k (.step (.thread (i + 1) a))).map fun m => (m, .goto (.inside k))

/-- It is back from there, normally or by an exception. -/
def inside (i : Nat) (m : Mem) (k : Nat) : Option Result :=
  match m.pool[k]?.bind fun p => p.state.threads[i + 1]? with
  | some ⟨.thr e, [.client]⟩ => some (m, .thr e)
  | some ⟨_, [.client]⟩ => some (m, .ret)
  | _ => none

/-- `Close()`. -/
def close (m : Mem) (ctl : Ctl Exn) : ClosePc → Result
  | .test => if m.closed then (m, .ret) else (m, .goto (.close (.loop 0)))
  | .loop k =>
    match ctl with
    | .thr e => (m, .thr e)
    | _ =>
      if k < m.pool.length then (m, .call (.close (.loop (k + 1))) (.calling k (.call .close)))
      else (m, .goto (.close .set))
  | .set => ({ m with closed := true }, .ret)

/-- `JoinAll()`. -/
def joinAll (S : Setting) (i : Nat) (m : Mem) : JoinPc → Option Result
  | .lock =>
    match m.closeMutex with
    | none => some ({ m with closeMutex := some i }, .goto (.joinAll .test))
    | some _ => none
  | .test =>
    if m.finished then some (m, .goto (.joinAll .unlock))
    else some (m, .goto (.joinAll (.loop 0)))
  | .loop k =>
    if k < m.pool.length then
      (m.turn S k (.wait (i + 1))).map fun m => (m, .goto (.joinAll (.waiting k)))
    else some (m, .goto (.joinAll .finish))
  | .waiting k =>
    if (m.pool[k]?.map fun p => p.waiting (i + 1)) = some .idle then
      some (m, .goto (.joinAll (.loop (k + 1))))
    else none
  | .finish => some ({ m with finished := true }, .goto (.joinAll .unlock))
  | .unlock => some ({ m with closeMutex := none }, .ret)

/-- `~Threadpool()`. -/
def destructor (m : Mem) : Result := (m, .call (.joinAll .lock) (.close .test))

/-- What user code of thread `i` calls. -/
def entry (S : Setting) (i : Nat) (m : Mem) : Act → Option (Mem × Frame)
  | .code => none
  | .getAnyPipeline => some (m, .getAnyPipeline none)
  | .use k (.call c) => some (m, .calling k (.call c))
  | .use k (.setPromise p o) => some (m, .calling k (.setPromise p o))
  | .use _ _ => none
  | .post => some (m, .getAnyPipeline (some .post))
  | .postWithTimer => some (m, .getAnyPipeline (some .postWithTimer))
  | .close => some (m, .close .test)
  | .waitUntilClosed => if i < S.users then some (m, .joinAll .lock) else none
  | .destroy => if i < S.users then some ({ m with destroying := true }, .destructor) else none

/-- User code. -/
def client (S : Setting) (i : Nat) (m : Mem) (a : Act) : Option Result :=
  if m.constructed && (!m.destroying || S.users ≤ i) then
    (entry S i m a).map fun r => (r.1, .call .client r.2)
  else none

/-! ## The machine -/

/-- One step of the top frame of thread `i`. -/
def frameStep (S : Setting) (i : Nat) (a : Act) (ctl : Ctl Exn) (m : Mem) :
    Frame → Option Result
  | .client => client S i m a
  | f =>
    match a, f with
    | .code, .getAnyPipeline after => some (getAnyPipeline S m after)
    | .code, .calling k a => calling S i m k a
    | .code, .inside k => inside i m k
    | .code, .close pc => some (close m ctl pc)
    | .code, .joinAll pc => joinAll S i m pc
    | .code, .destructor => some (destructor m)
    | _, _ => none

/-- What a pipeline may do by itself: its constructor when it is its turn, its
`Run`, its timers, and what has been called on it. -/
def Mem.alone (m : Mem) (k : Nat) : Turn → Bool
  | .construct => (m.pool.take k).all fun p => p.ctor == .returned
  | .run _ => true
  | .wait i => (m.pool[k]?.map fun p => p.waiting i) != some .idle
  | .step (.thread 0 _) => true
  | .step (.thread (_ + 1) a) => a == .code
  | .step (.env _) => true

/-- The pool as a program over `Mem`. -/
def program (S : Setting) : Program Mem Frame Exn Act (Nat × Turn) where
  step := frameStep S
  env e m := if m.alone e.1 e.2 then m.turn S e.1 e.2 else none

/-- The shared memory and all threads. -/
abbrev State := Pool Mem Frame Exn

/-- What happens next. -/
abbrev Step := Label Act (Nat × Turn)

/-- The pool at the beginning of its constructor. -/
def initial (S : Setting) : State where
  mem := { pool := (List.range S.capacity.toNat).map fun k =>
    { state := Pipeline.initial (Setting.name k) (S.maxPerThreadQueueCapacity.setWidth 64)
        S.threads } }
  threads := List.replicate S.threads ⟨.go, [.client]⟩

/-- The destructor begins when no thread of the program is inside the pool. -/
def allowed (S : Setting) (s : State) : Step → Bool
  | .thread _ .destroy => (s.threads.take S.users).all fun th => th.frames == [.client]
  | _ => true

/-- The pool under any number of threads. -/
def machine (S : Setting) : Lts State Step where
  init s := s = initial S ∧ ∀ p ∈ s.mem.pool, Fits p.state
  next s l := if allowed S s l then (program S).next s l else none

end Warlib.Threadpool
