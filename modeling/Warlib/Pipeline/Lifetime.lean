import Warlib.Pipeline.Runs

/-!
# The life of a pipeline

A `Pipeline` object around the machine of `Step.lean`: its constructor,
`Pipeline::Run` on the worker from its first statement to its last, and
`WaitUntilClosed` on other threads. `Turned` inverts one step.

Mirroring notes:

* `state` is the machine of `Step.lean`; it is the constructed pipeline from
  the start, and moves only when the code around it lets it: the worker inside
  `io_context_->run()`, a client once the constructor has returned and while
  it is not inside `WaitUntilClosed`.
* `sync` is the promise shared by the constructor and `Run`: `true` for
  `set_value`, `false` for `set_exception`. What is thrown before the loop is
  thrown while the work guard is made; the constructor then rethrows, and
  nobody has a pipeline to use. Pinning the thread only logs.
* `unique_lock` and `lock_guard` give `waiter_` back at the end of their
  scope; on the way out of `Run` that is its last action.
* `WaitUntilClosed` on the worker would lock a mutex the thread already holds;
  it is a call of the clients only.
* `~Pipeline` is not modelled: it joins the thread, after everybody has
  stopped using the object.
-/

namespace Warlib.Pipeline

open Warlib.Machine

/-! ## The object around the machine -/

/-- Who holds `waiter_`. -/
inductive Holder
  | worker
  | client (i : Nat)
  deriving DecidableEq, Repr

/-- The constructor: starting the thread, `sync.get_future().get()`, and the
two ways it ends. -/
inductive CtorPc
  | start
  | get
  | returned
  | rethrew
  deriving DecidableEq, Repr

/-- `Run`: locking `waiter_`, making the work guard, `sync.set_value()` or
`sync.set_exception(..)`, `io_context_->run()`, and the end of the lock. -/
inductive RunPc
  | unborn
  | lock
  | guard
  | setValue
  | setException
  | loop
  | unlock
  | done
  deriving DecidableEq, Repr

/-- `WaitUntilClosed`: not called, locking `waiter_`, and the end of the lock. -/
inductive WaitPc
  | idle
  | lock
  | unlock
  deriving DecidableEq, Repr

/-- A pipeline with its constructor, its `Run` and its waiters. -/
structure Lifetime where
  state : State
  ctor : CtorPc := .start
  run : RunPc := .unborn
  sync : Option Bool := none
  waiter : Option Holder := none
  waiting : Nat → WaitPc := fun _ => .idle

/-- What happens next to a pipeline: its constructor, `Run` (`fails` when making
the work guard throws), `WaitUntilClosed` of client `i`, or a step inside. -/
inductive Turn
  | construct
  | run (fails : Bool)
  | wait (i : Nat)
  | step (l : Step)
  deriving DecidableEq, Repr

/-- The pipeline with client `i` elsewhere in `WaitUntilClosed`. -/
@[simp] def Lifetime.setWaiting (p : Lifetime) (i : Nat) (pc : WaitPc) : Lifetime :=
  { p with waiting := fun j => if j = i then pc else p.waiting j }

/-- `Pipeline::Pipeline`. -/
def Lifetime.construct (p : Lifetime) : Option Lifetime :=
  match p.ctor with
  | .start => some { p with ctor := .get, run := .lock }
  | .get =>
    match p.sync with
    | none => none
    | some true => some { p with ctor := .returned }
    | some false => some { p with ctor := .rethrew }
  | .returned => none
  | .rethrew => none

/-- `Pipeline::Run`. -/
def Lifetime.runStep (p : Lifetime) (fails : Bool) : Option Lifetime :=
  match p.run with
  | .unborn => none
  | .lock =>
    match p.waiter with
    | none => some { p with waiter := some .worker, run := .guard }
    | some _ => none
  | .guard => some { p with run := if fails then .setException else .setValue }
  | .setValue => some { p with sync := some true, run := .loop }
  | .setException => some { p with sync := some false, run := .unlock }
  | .loop =>
    if p.state.threads[0]?.map Thread.frames = some [] then some { p with run := .unlock }
    else none
  | .unlock => some { p with waiter := none, run := .done }
  | .done => none

/-- `WaitUntilClosed()` on client `i`; called on a constructed pipeline, by user
code. -/
def Lifetime.waitUntilClosed (p : Lifetime) (i : Nat) : Option Lifetime :=
  match p.waiting i with
  | .idle =>
    if p.ctor = .returned ∧ p.state.threads[i]?.map Thread.frames = some [.client] then
      some (p.setWaiting i .lock)
    else none
  | .lock =>
    match p.waiter with
    | none => some { p.setWaiting i .unlock with waiter := some (.client i) }
    | some _ => none
  | .unlock => some { p.setWaiting i .idle with waiter := none }

/-- Which steps of the machine the code around it lets happen. -/
def Lifetime.lets (p : Lifetime) : Step → Bool
  | .thread 0 _ => p.run == .loop
  | .thread i _ => p.ctor == .returned && p.waiting i == .idle
  | .env _ => true

/-- One step of a pipeline, from its constructor on. -/
def Lifetime.turn (name : String) (cap : BitVec 64) (n : Nat) (p : Lifetime) :
    Turn → Option Lifetime
  | .construct => p.construct
  | .run fails => p.runStep fails
  | .wait i => p.waitUntilClosed i
  | .step l =>
    if p.lets l then ((machine name cap n).next p.state l).map fun s => { p with state := s }
    else none

/-- A pipeline from its constructor on, under `n` clients. -/
def lifetime (name : String) (cap : BitVec 64) (n : Nat) : Lts Lifetime Turn where
  init p := p = { state := initial name cap n } ∧ Fits p.state
  next := Lifetime.turn name cap n

/-! ## What one step can do -/

/-- `Lifetime.turn`, inverted. -/
inductive Turned (name : String) (cap : BitVec 64) (n : Nat) (p : Lifetime) :
    Turn → Lifetime → Prop
  -- the constructor
  | start (hc : p.ctor = .start) :
    Turned name cap n p .construct { p with ctor := .get, run := .lock }
  | returned (hc : p.ctor = .get) (hs : p.sync = some true) :
    Turned name cap n p .construct { p with ctor := .returned }
  | rethrew (hc : p.ctor = .get) (hs : p.sync = some false) :
    Turned name cap n p .construct { p with ctor := .rethrew }
  -- `Run`
  | lock {fails : Bool} (hr : p.run = .lock) (hw : p.waiter = none) :
    Turned name cap n p (.run fails) { p with waiter := some .worker, run := .guard }
  | guarded (hr : p.run = .guard) : Turned name cap n p (.run false) { p with run := .setValue }
  | unguarded (hr : p.run = .guard) :
    Turned name cap n p (.run true) { p with run := .setException }
  | setValue {fails : Bool} (hr : p.run = .setValue) :
    Turned name cap n p (.run fails) { p with sync := some true, run := .loop }
  | setException {fails : Bool} (hr : p.run = .setException) :
    Turned name cap n p (.run fails) { p with sync := some false, run := .unlock }
  | left {fails : Bool} (hr : p.run = .loop)
      (hend : p.state.threads[0]?.map Thread.frames = some []) :
    Turned name cap n p (.run fails) { p with run := .unlock }
  | unlock {fails : Bool} (hr : p.run = .unlock) :
    Turned name cap n p (.run fails) { p with waiter := none, run := .done }
  -- `WaitUntilClosed`
  | call {i : Nat} (hi : p.waiting i = .idle) (hc : p.ctor = .returned)
      (hth : p.state.threads[i]?.map Thread.frames = some [.client]) :
    Turned name cap n p (.wait i) (p.setWaiting i .lock)
  | acquire {i : Nat} (hi : p.waiting i = .lock) (hw : p.waiter = none) :
    Turned name cap n p (.wait i) { p.setWaiting i .unlock with waiter := some (.client i) }
  | release {i : Nat} (hi : p.waiting i = .unlock) :
    Turned name cap n p (.wait i) { p.setWaiting i .idle with waiter := none }
  -- inside
  | step {l : Step} {s : State} (hl : p.lets l = true)
      (hn : (machine name cap n).next p.state l = some s) :
    Turned name cap n p (.step l) { p with state := s }

variable {name : String} {cap : BitVec 64} {n : Nat} {p p' : Lifetime} {t : Turn} {i : Nat}

private theorem construct_turned (h : p.construct = some p') :
    Turned name cap n p .construct p' := by
  unfold Lifetime.construct at h
  split at h
  next hc => cases h; exact .start hc
  next hc =>
    split at h
    next => exact absurd h (by simp)
    next hs => cases h; exact .returned hc hs
    next hs => cases h; exact .rethrew hc hs
  next => exact absurd h (by simp)
  next => exact absurd h (by simp)

private theorem runStep_turned {fails : Bool} (h : p.runStep fails = some p') :
    Turned name cap n p (.run fails) p' := by
  unfold Lifetime.runStep at h
  split at h
  next => exact absurd h (by simp)
  next hr =>
    split at h
    next hw => cases h; exact .lock hr hw
    next => exact absurd h (by simp)
  next hr =>
    cases fails with
    | false => cases h; exact .guarded hr
    | true => cases h; exact .unguarded hr
  next hr => cases h; exact .setValue hr
  next hr => cases h; exact .setException hr
  next hr =>
    split at h
    next hend => cases h; exact .left hr hend
    next => exact absurd h (by simp)
  next hr => cases h; exact .unlock hr
  next => exact absurd h (by simp)

private theorem waitUntilClosed_turned (h : p.waitUntilClosed i = some p') :
    Turned name cap n p (.wait i) p' := by
  unfold Lifetime.waitUntilClosed at h
  split at h
  next hi =>
    split at h
    next hcall => cases h; exact .call hi hcall.1 hcall.2
    next => exact absurd h (by simp)
  next hi =>
    split at h
    next hw => cases h; exact .acquire hi hw
    next => exact absurd h (by simp)
  next hi => cases h; exact .release hi

theorem turned_of_next (h : (lifetime name cap n).next p t = some p') :
    Turned name cap n p t p' := by
  cases t with
  | construct => exact construct_turned h
  | run fails => exact runStep_turned h
  | wait i => exact waitUntilClosed_turned h
  | step l =>
    have h : (if p.lets l then ((machine name cap n).next p.state l).map fun s =>
        { p with state := s } else none) = some p' := h
    split at h
    next hl =>
      obtain ⟨s, hn, rfl⟩ := Option.map_eq_some_iff.mp h
      exact .step hl hn
    next => exact absurd h (by simp)

/-- Inside a pipeline runs the machine. -/
theorem Turned.inside (h : Turned name cap n p t p') :
    p'.state = p.state ∨ ∃ l, t = .step l ∧ p.lets l = true ∧
      (machine name cap n).next p.state l = some p'.state := by
  cases h with
  | step hl hn => exact Or.inr ⟨_, rfl, hl, hn⟩
  | _ => exact Or.inl rfl

/-- A state of the machine. -/
theorem reach_inside {ok : Lifetime → Turn → Prop} (h : (lifetime name cap n).Reach ok p) :
    (machine name cap n).Reach (fun _ _ => True) p.state := by
  refine h.invariant (I := fun p => (machine name cap n).Reach (fun _ _ => True) p.state) ?_ ?_
  · intro p hinit
    obtain ⟨rfl, hfits⟩ := hinit
    exact .start ⟨rfl, hfits⟩
  · intro p t p' _ _ hnext hI
    rcases (turned_of_next hnext).inside with hsame | ⟨l, -, -, hn⟩
    · rw [hsame]
      exact hI
    · exact .step hI trivial hn

end Warlib.Pipeline
