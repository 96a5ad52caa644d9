import Warlib.Threadpool.Model

/-!
# The constructor of a pool

`Threadpool::Threadpool` from its loop to its end, with the pipelines it
constructs at work beside it, and what happens when one of them cannot be
constructed. A constructor that ends by an exception destroys the members
that exist, `pool_` among them, and does not run `~Threadpool`. So nobody
calls `Close` on the pipelines that have been built; `~Pipeline` joins the
worker, and the worker stays in `run()` as long as its work guard is there
(`failing_constructor`).

Mirroring notes:

* The pipelines are those of `Pipeline/Lifetime.lean` without clients: nobody
  has a reference to them yet. A pipeline under construction counts as the
  next one after those in `pool_`.
* `early` is what fails before the pipeline has a thread: memory for its name,
  for itself and its `io_context`, or `std::thread`, when the operating system
  refuses one. `guard` is what `Run` passes on to the constructor with
  `set_exception`; what is destroyed then is a `std::thread` that is joinable,
  and that terminates the process.
* `pool_.reserve` has its memory when the loop begins, and `emplace_back` does
  not allocate.
* In which order a vector destroys its elements is not specified; it may be
  any.
* `failed` exists for the statements only.
-/

namespace Warlib.Threadpool

open Warlib.Machine Warlib.Pipeline

/-! ## What a pipeline is given -/

/-- `(pinning && pinning->size() > i) ? pinning->at(i) : -1`. -/
def pinTo (pinning : Option (List Int)) (i : BitVec 32) : Int :=
  match pinning with
  | none => -1
  | some cpus => if h : i.toNat < cpus.length then cpus[i.toNat] else -1

/-- The arguments of `Pipeline::Pipeline`. -/
structure Arguments where
  name : String
  id : Int
  capacity : BitVec 64
  pinTo : Int
  deriving DecidableEq, Repr

/-- The arguments in round `i` of the loop. -/
def Setting.arguments (S : Setting) (pinning : Option (List Int)) (i : BitVec 32) : Arguments where
  name := Setting.name i.toNat
  id := i.toInt
  capacity := S.maxPerThreadQueueCapacity.setWidth 64
  pinTo := Threadpool.pinTo pinning i

/-- A pipeline and what it was given. -/
structure Worker where
  arguments : Arguments
  lifetime : Lifetime

/-- The constructed state of a pipeline nobody has used. -/
def Arguments.state (args : Arguments) : Pipeline.State :=
  Pipeline.initial args.name args.capacity 0

/-- A pipeline at the beginning of its constructor. -/
def Arguments.worker (args : Arguments) : Worker := ⟨args, { state := args.state }⟩

/-- A turn of the worker thread, or of the timers. -/
def Worker.turn (w : Worker) : Turn → Option Worker
  | .run fails => (w.lifetime.runStep fails).map fun p => { w with lifetime := p }
  | .step l =>
    (Lifetime.turn w.arguments.name w.arguments.capacity 0 w.lifetime (.step l)).map fun p =>
      { w with lifetime := p }
  | _ => none

/-! ## The machine -/

/-- How the construction of a pipeline failed. -/
inductive Failure
  | early
  | guard
  deriving DecidableEq, Repr

/-- The head of the loop, inside the constructor of a pipeline, destroying `pool_`,
inside `~Pipeline` at `thread_->join()`, and how it all ends. -/
inductive Stage
  | loop (i : BitVec 32)
  | making (i : BitVec 32) (w : Worker)
  | unwinding
  | joining (k : Nat)
  | returned
  | threw
  | terminated

/-- The constructor of a pool, and `pool_`. -/
structure Construction where
  stage : Stage := .loop 0
  pool : List Worker := []
  failed : Option (Nat × Failure) := none

/-- What happens next: the constructing thread goes on, what it needs is refused to
it, it begins to destroy the `k`th pipeline, or the `k`th pipeline takes a turn. -/
inductive Doing
  | construct
  | refuse
  | destroy (k : Nat)
  | worker (k : Nat) (t : Turn)

/-- `Threadpool::Threadpool`, and the destruction of `pool_`. -/
def Construction.construct (S : Setting) (pinning : Option (List Int)) (c : Construction) :
    Option Construction :=
  match c.stage with
  | .loop i =>
    if i < S.capacity then some { c with stage := .making i (S.arguments pinning i).worker }
    else some { c with stage := .returned }
  | .making i w =>
    w.lifetime.construct.map fun p =>
      match p.ctor with
      | .returned =>
        { c with stage := .loop (i + 1), pool := c.pool ++ [{ w with lifetime := p }] }
      | .rethrew => { c with stage := .terminated, failed := some (c.pool.length, .guard) }
      | _ => { c with stage := .making i { w with lifetime := p } }
  | .unwinding => if c.pool.isEmpty then some { c with stage := .threw } else none
  | .joining k =>
    match c.pool[k]? with
    | some w =>
      if w.lifetime.run = .done then
        some { c with stage := .unwinding, pool := c.pool.eraseIdx k }
      else none
    | none => none
  | _ => none

/-- The next thing the constructor needs is refused. -/
def Construction.refuse (S : Setting) (c : Construction) : Option Construction :=
  let c' := { c with stage := .unwinding, failed := some (c.pool.length, .early) }
  match c.stage with
  | .loop i => if i < S.capacity then some c' else none
  | .making _ w => if w.lifetime.ctor = .start then some c' else none
  | _ => none

/-- The destructor of the `k`th pipeline begins, and comes to the join. -/
def Construction.destroy (c : Construction) (k : Nat) : Option Construction :=
  match c.stage with
  | .unwinding => if k < c.pool.length then some { c with stage := .joining k } else none
  | _ => none

/-- The `k`th pipeline takes a turn. -/
def Construction.worker (c : Construction) (k : Nat) (t : Turn) : Option Construction :=
  match c.pool[k]? with
  | some w => (w.turn t).map fun w => { c with pool := c.pool.set k w }
  | none =>
    match c.stage with
    | .making i w => (w.turn t).map fun w => { c with stage := .making i w }
    | _ => none

/-- One step. -/
def Construction.next (S : Setting) (pinning : Option (List Int)) (c : Construction) :
    Doing → Option Construction
  | .construct => c.construct S pinning
  | .refuse => c.refuse S
  | .destroy k => c.destroy k
  | .worker k t => c.worker k t

/-- The constructor of a pool, and its pipelines. -/
def construction (S : Setting) (pinning : Option (List Int)) : Lts Construction Doing where
  init c := c = {}
  next := Construction.next S pinning

/-! ## What one step can do -/

/-- `Construction.next`, inverted. -/
inductive Built (S : Setting) (pinning : Option (List Int)) (c : Construction) :
    Doing → Construction → Prop
  | begin {i : BitVec 32} (hs : c.stage = .loop i) (hi : i < S.capacity) :
    Built S pinning c .construct { c with stage := .making i (S.arguments pinning i).worker }
  | returned {i : BitVec 32} (hs : c.stage = .loop i) (hi : ¬i < S.capacity) :
    Built S pinning c .construct { c with stage := .returned }
  | made {i : BitVec 32} {w : Worker} {p : Lifetime} (hs : c.stage = .making i w)
      (hp : w.lifetime.construct = some p) (hc : p.ctor = .returned) :
    Built S pinning c .construct
      { c with stage := .loop (i + 1), pool := c.pool ++ [{ w with lifetime := p }] }
  | rethrew {i : BitVec 32} {w : Worker} {p : Lifetime} (hs : c.stage = .making i w)
      (hp : w.lifetime.construct = some p) (hc : p.ctor = .rethrew) :
    Built S pinning c .construct
      { c with stage := .terminated, failed := some (c.pool.length, .guard) }
  | goes {i : BitVec 32} {w : Worker} {p : Lifetime} (hs : c.stage = .making i w)
      (hp : w.lifetime.construct = some p) (hc : p.ctor ≠ .returned) (hc' : p.ctor ≠ .rethrew) :
    Built S pinning c .construct { c with stage := .making i { w with lifetime := p } }
  | threw (hs : c.stage = .unwinding) (hp : c.pool = []) :
    Built S pinning c .construct { c with stage := .threw }
  | joined {k : Nat} {w : Worker} (hs : c.stage = .joining k) (hw : c.pool[k]? = some w)
      (hr : w.lifetime.run = .done) :
    Built S pinning c .construct { c with stage := .unwinding, pool := c.pool.eraseIdx k }
  | refused {i : BitVec 32} (hs : c.stage = .loop i) (hi : i < S.capacity) :
    Built S pinning c .refuse { c with stage := .unwinding, failed := some (c.pool.length, .early) }
  | refused_inside {i : BitVec 32} {w : Worker} (hs : c.stage = .making i w)
      (hc : w.lifetime.ctor = .start) :
    Built S pinning c .refuse { c with stage := .unwinding, failed := some (c.pool.length, .early) }
  | destroy {k : Nat} (hs : c.stage = .unwinding) (hk : k < c.pool.length) :
    Built S pinning c (.destroy k) { c with stage := .joining k }
  | turn {k : Nat} {t : Turn} {w w' : Worker} (hw : c.pool[k]? = some w) (ht : w.turn t = some w') :
    Built S pinning c (.worker k t) { c with pool := c.pool.set k w' }
  | turn_inside {k : Nat} {t : Turn} {i : BitVec 32} {w w' : Worker} (hs : c.stage = .making i w)
      (ht : w.turn t = some w') :
    Built S pinning c (.worker k t) { c with stage := .making i w' }

variable {S : Setting} {pinning : Option (List Int)} {c c' : Construction} {d : Doing}
  {w w' : Worker} {ok : Construction → Doing → Prop}

private theorem construct_built (h : c.construct S pinning = some c') :
    Built S pinning c .construct c' := by
  unfold Construction.construct at h
  split at h
  next i hs =>
    split at h
    next hi => cases h; exact .begin hs hi
    next hi => cases h; exact .returned hs hi
  next i w hs =>
    obtain ⟨p, hp, rfl⟩ := Option.map_eq_some_iff.mp h
    split
    next hc => exact .made hs hp hc
    next hc => exact .rethrew hs hp hc
    next hc hc' => exact .goes hs hp hc hc'
  next hs =>
    split at h
    next hp => cases h; exact .threw hs (by simpa using hp)
    next => exact absurd h (by simp)
  next k hs =>
    split at h
    next w hw =>
      split at h
      next hr => cases h; exact .joined hs hw hr
      next => exact absurd h (by simp)
    next => exact absurd h (by simp)
  next => exact absurd h (by simp)

private theorem refuse_built (h : c.refuse S = some c') : Built S pinning c .refuse c' := by
  unfold Construction.refuse at h
  dsimp only at h
  split at h
  next i hs =>
    split at h
    next hi => cases h; exact .refused hs hi
    next => exact absurd h (by simp)
  next i w hs =>
    split at h
    next hc => cases h; exact .refused_inside hs hc
    next => exact absurd h (by simp)
  next => exact absurd h (by simp)

private theorem destroy_built {k : Nat} (h : c.destroy k = some c') :
    Built S pinning c (.destroy k) c' := by
  unfold Construction.destroy at h
  split at h
  next hs =>
    split at h
    next hk => cases h; exact .destroy hs hk
    next => exact absurd h (by simp)
  next => exact absurd h (by simp)

private theorem worker_built {k : Nat} {t : Turn} (h : c.worker k t = some c') :
    Built S pinning c (.worker k t) c' := by
  unfold Construction.worker at h
  split at h
  next w hw =>
    obtain ⟨w', ht, rfl⟩ := Option.map_eq_some_iff.mp h
    exact .turn hw ht
  next =>
    split at h
    next i w hs =>
      obtain ⟨w', ht, rfl⟩ := Option.map_eq_some_iff.mp h
      exact .turn_inside hs ht
    next => exact absurd h (by simp)

theorem built_of_next (h : (construction S pinning).next c d = some c') :
    Built S pinning c d c' := by
  cases d with
  | construct => exact construct_built h
  | refuse => exact refuse_built h
  | destroy k => exact destroy_built h
  | worker k t => exact worker_built h

/-! ## Pipelines nobody has used -/

/-- A pipeline without clients stays as it was constructed: its worker waits for the
run queue to fill. -/
theorem unused_next (args : Arguments) (l : Pipeline.Step) :
    (Pipeline.machine args.name args.capacity 0).next args.state l = none := by
  cases hn : (Pipeline.machine args.name args.capacity 0).next args.state l with
  | none => rfl
  | some s' =>
    exfalso
    have hs := (Pipeline.stepped_of_next hn).1
    cases hs with
    | @move i a ctl f rest m nx hth hm =>
      have hi : i = 0 := by
        have hlt := (List.getElem?_eq_some_iff.mp hth).1
        have hone : args.state.threads.length = 1 := rfl
        omega
      subst hi
      have hthread := Pipeline.initial_thread hth
      obtain ⟨rfl, hframes⟩ := Thread.mk.inj hthread
      obtain ⟨rfl, rfl⟩ := List.cons.inj hframes
      cases hm
      case user_set hf => exact absurd hf (by simp [Pipeline.Frame.userCode])
      case user_set_again hf => exact absurd hf (by simp [Pipeline.Frame.userCode])
      case run_stopped hs _ => exact absurd hs (by simp [Arguments.state, Pipeline.initial])
      case run_take hq _ => exact absurd hq (by simp [Arguments.state, Pipeline.initial])
      case run_outOfWork hg _ _ => exact absurd hg (by simp [Arguments.state, Pipeline.initial])
    | expire ht => exact absurd ht (by simp [Arguments.state, Pipeline.initial])

/-- How far a constructor, its `Run` and what has been told between them can be. -/
inductive Place : CtorPc → RunPc → Option Bool → Prop
  | start : Place .start .unborn none
  | lock : Place .get .lock none
  | guard : Place .get .guard none
  | setValue : Place .get .setValue none
  | setException : Place .get .setException none
  | loop : Place .get .loop (some true)
  | unlock : Place .get .unlock (some false)
  | done : Place .get .done (some false)

/-- A pipeline inside its constructor. -/
structure UnderWay (args : Arguments) (w : Worker) : Prop where
  arguments : w.arguments = args
  state : w.lifetime.state = args.state
  place : Place w.lifetime.ctor w.lifetime.run w.lifetime.sync

/-- A constructed pipeline: nobody has called anything on it, and its worker is in the
loop. -/
structure Up (args : Arguments) (w : Worker) : Prop where
  arguments : w.arguments = args
  state : w.lifetime.state = args.state
  run : w.lifetime.run = .loop

variable {args : Arguments}

theorem underWay_worker (args : Arguments) : UnderWay args args.worker :=
  ⟨rfl, rfl, .start⟩

/-- A turn of such a pipeline is a step of its `Run`. -/
theorem turn_turned {t : Turn} (h : w.turn t = some w')
    (hstate : w.lifetime.state = w.arguments.state) :
    w'.arguments = w.arguments ∧ ∃ fails, Turned w.arguments.name w.arguments.capacity 0 w.lifetime
      (.run fails) w'.lifetime := by
  cases t with
  | construct => exact absurd h (by simp [Worker.turn])
  | wait i => exact absurd h (by simp [Worker.turn])
  | run fails =>
    obtain ⟨p, hp, rfl⟩ := Option.map_eq_some_iff.mp h
    exact ⟨rfl, fails, Pipeline.turned_of_next hp⟩
  | step l =>
    obtain ⟨p, hp, -⟩ := Option.map_eq_some_iff.mp h
    have hturned : Turned w.arguments.name w.arguments.capacity 0 w.lifetime (.step l) p :=
      Pipeline.turned_of_next hp
    cases hturned with
    | step hl hn =>
      rw [hstate, unused_next] at hn
      exact absurd hn (by simp)

/-- The worker does not leave the loop. -/
theorem unused_working (args : Arguments) :
    args.state.threads[0]?.map Thread.frames ≠ some [] := by
  simp [Arguments.state, Pipeline.initial]

/-- `Run` beside the constructor. -/
theorem UnderWay.turn {t : Turn} (h : UnderWay args w) (ht : w.turn t = some w') :
    UnderWay args w' := by
  obtain ⟨hargs, hstate, hplace⟩ := h
  subst hargs
  obtain ⟨hsame, fails, hrun⟩ := turn_turned ht hstate
  obtain ⟨args, state, ctor, run, sync, waiter, waiting⟩ := w
  obtain ⟨args', p'⟩ := w'
  obtain rfl : args' = args := hsame
  dsimp only at hstate hplace hrun
  cases hrun
  case left hr hend => exact absurd (hstate ▸ hend) (unused_working _)
  case lock hr hw =>
    obtain rfl : run = .lock := hr
    cases hplace
    exact ⟨rfl, hstate, .guard⟩
  case guarded hr =>
    obtain rfl : run = .guard := hr
    cases hplace
    exact ⟨rfl, hstate, .setValue⟩
  case unguarded hr =>
    obtain rfl : run = .guard := hr
    cases hplace
    exact ⟨rfl, hstate, .setException⟩
  case setValue hr =>
    obtain rfl : run = .setValue := hr
    cases hplace
    exact ⟨rfl, hstate, .loop⟩
  case setException hr =>
    obtain rfl : run = .setException := hr
    cases hplace
    exact ⟨rfl, hstate, .unlock⟩
  case unlock hr =>
    obtain rfl : run = .unlock := hr
    cases hplace
    exact ⟨rfl, hstate, .done⟩

/-- The constructor beside `Run`: it goes on, has a worker in the loop, or passes on
what `Run` has told it. -/
theorem UnderWay.construct {p : Lifetime} (h : UnderWay args w)
    (hp : w.lifetime.construct = some p) :
    (p.ctor = .get ∧ UnderWay args { w with lifetime := p }) ∨
      (p.ctor = .returned ∧ Up args { w with lifetime := p }) ∨ p.ctor = .rethrew := by
  obtain ⟨hargs, hstate, hplace⟩ := h
  subst hargs
  obtain ⟨args, state, ctor, run, sync, waiter, waiting⟩ := w
  dsimp only at hstate hplace hp
  unfold Lifetime.construct at hp
  cases hplace
  case start =>
    obtain rfl := Option.some.inj hp
    exact Or.inl ⟨rfl, rfl, hstate, .lock⟩
  case loop =>
    obtain rfl := Option.some.inj hp
    exact Or.inr (Or.inl ⟨rfl, rfl, hstate, rfl⟩)
  case unlock =>
    obtain rfl := Option.some.inj hp
    exact Or.inr (Or.inr rfl)
  case done =>
    obtain rfl := Option.some.inj hp
    exact Or.inr (Or.inr rfl)
  all_goals exact absurd hp (by simp)

/-- A constructed pipeline takes no turn. -/
theorem Up.still {t : Turn} (h : Up args w) : w.turn t = none := by
  cases ht : w.turn t with
  | none => rfl
  | some w' =>
    exfalso
    obtain ⟨hargs, hstate, hrun⟩ := h
    subst hargs
    obtain ⟨-, fails, hturned⟩ := turn_turned ht hstate
    obtain ⟨args', p'⟩ := w'
    dsimp only at hturned
    cases hturned with
    | left hr hend =>
      rw [hstate] at hend
      exact unused_working _ hend
    | lock hr _ => exact absurd (hrun.symm.trans hr) (by simp)
    | guarded hr => exact absurd (hrun.symm.trans hr) (by simp)
    | unguarded hr => exact absurd (hrun.symm.trans hr) (by simp)
    | setValue hr => exact absurd (hrun.symm.trans hr) (by simp)
    | setException hr => exact absurd (hrun.symm.trans hr) (by simp)
    | unlock hr => exact absurd (hrun.symm.trans hr) (by simp)

/-! ## The loop -/

/-- Where the constructor is, and what it has got to. -/
inductive Progress (S : Setting) (pinning : Option (List Int)) :
    Stage → Nat → Option (Nat × Failure) → Prop
  | loop {i : BitVec 32} {n : Nat} (hi : i.toNat = n) (hn : n ≤ S.capacity.toNat) :
    Progress S pinning (.loop i) n none
  | making {i : BitVec 32} {n : Nat} {w : Worker} (hi : i.toNat = n) (hn : i < S.capacity)
      (hw : UnderWay (S.arguments pinning i) w) : Progress S pinning (.making i w) n none
  | returned : Progress S pinning .returned S.capacity.toNat none
  | unwinding {n : Nat} (hn : n < S.capacity.toNat) :
    Progress S pinning .unwinding n (some (n, .early))
  | joining {n k : Nat} (hk : k < n) (hn : n < S.capacity.toNat) :
    Progress S pinning (.joining k) n (some (n, .early))
  | threw : Progress S pinning .threw 0 (some (0, .early))
  | terminated {n : Nat} (hn : n < S.capacity.toNat) :
    Progress S pinning .terminated n (some (n, .guard))

/-- What holds of the constructor and its pipelines all the time. -/
structure Sound (S : Setting) (pinning : Option (List Int)) (c : Construction) : Prop where
  up : ∀ k w, c.pool[k]? = some w → Up (S.arguments pinning (.ofNat 32 k)) w
  progress : Progress S pinning c.stage c.pool.length c.failed

theorem Sound.step (h : Sound S pinning c) (hs : Built S pinning c d c') :
    Sound S pinning c' := by
  obtain ⟨hup, hprogress⟩ := h
  obtain ⟨stage, pool, failed⟩ := c
  dsimp only at hup hprogress
  cases hs
  case begin i hs hi =>
    obtain rfl : stage = .loop i := hs
    cases hprogress with
    | loop hi' _ => exact ⟨hup, .making hi' hi (underWay_worker _)⟩
  case returned i hs hi =>
    obtain rfl : stage = .loop i := hs
    cases hprogress with
    | loop hi' hn =>
      have hall : pool.length = S.capacity.toNat := by
        have hnot : ¬i.toNat < S.capacity.toNat := hi
        omega
      refine ⟨hup, ?_⟩
      dsimp only
      rw [hall]
      exact .returned
  case made i w p hs hp hc =>
    obtain rfl : stage = .making i w := hs
    cases hprogress with
    | making hi' hi hw =>
      have hlt : i.toNat < S.capacity.toNat := hi
      rcases hw.construct hp with ⟨hget, -⟩ | ⟨-, hnew⟩ | hthrew
      · exact absurd (hc.symm.trans hget) (by simp)
      · refine ⟨fun k w' hk => ?_, ?_⟩
        · dsimp only at hk
          rw [List.getElem?_append] at hk
          split at hk
          next => exact hup k w' hk
          next hge =>
            rw [List.getElem?_singleton] at hk
            split at hk
            next hlast =>
              obtain rfl := Option.some.inj hk
              have hkey : BitVec.ofNat 32 k = i := by
                have : k = i.toNat := by omega
                rw [this, BitVec.ofNat_toNat, BitVec.setWidth_eq]
              rw [hkey]
              exact hnew
            next => exact absurd hk (by simp)
        · have hnext : (i + 1).toNat = pool.length + 1 := by
            have hsmall := S.capacity.isLt
            rw [BitVec.toNat_add, ← hi']
            exact Nat.mod_eq_of_lt (by simp; omega)
          dsimp only
          rw [List.length_append, List.length_singleton]
          exact .loop hnext (by omega)
      · exact absurd (hc.symm.trans hthrew) (by simp)
  case rethrew i w p hs hp hc =>
    obtain rfl : stage = .making i w := hs
    cases hprogress with
    | making hi' hi _ => exact ⟨hup, .terminated (hi' ▸ hi)⟩
  case goes i w p hs hp hc hc' =>
    obtain rfl : stage = .making i w := hs
    cases hprogress with
    | making hi' hi hw =>
      rcases hw.construct hp with ⟨-, hgoes⟩ | ⟨hret, -⟩ | hthrew
      · exact ⟨hup, .making hi' hi hgoes⟩
      · exact absurd hret hc
      · exact absurd hthrew hc'
  case threw hs hp =>
    obtain rfl : stage = .unwinding := hs
    obtain rfl : pool = [] := hp
    cases hprogress with
    | unwinding hn => exact ⟨hup, .threw⟩
  case joined k w hs hw hr =>
    exact absurd ((hup k w hw).run.symm.trans hr) (by simp)
  case refused i hs hi =>
    obtain rfl : stage = .loop i := hs
    cases hprogress with
    | loop hi' _ => exact ⟨hup, .unwinding (hi' ▸ hi)⟩
  case refused_inside i w hs hc =>
    obtain rfl : stage = .making i w := hs
    cases hprogress with
    | making hi' hi _ => exact ⟨hup, .unwinding (hi' ▸ hi)⟩
  case destroy k hs hk =>
    obtain rfl : stage = .unwinding := hs
    cases hprogress with
    | unwinding hn => exact ⟨hup, .joining hk hn⟩
  case turn k t w w' hw ht =>
    exact absurd ((hup k w hw).still.symm.trans ht) (by simp)
  case turn_inside k t i w w' hs ht =>
    obtain rfl : stage = .making i w := hs
    cases hprogress with
    | making hi' hi hw => exact ⟨hup, .making hi' hi (hw.turn ht)⟩

theorem reach_sound (h : (construction S pinning).Reach ok c) : Sound S pinning c := by
  refine h.invariant ?_ ?_
  · rintro c rfl
    exact ⟨fun k w hk => absurd hk (by simp), .loop rfl (Nat.zero_le _)⟩
  · intro c d c' _ _ hnext hI
    exact hI.step (built_of_next hnext)

/-- Never more pipelines than `capacity_`. -/
theorem Sound.length_le (h : Sound S pinning c) : c.pool.length ≤ S.capacity.toNat := by
  have hprogress := h.progress
  generalize c.stage = stage, c.failed = failed, c.pool.length = n at hprogress ⊢
  cases hprogress with
  | loop _ hn => exact hn
  | making hi hn _ =>
    have hlt : _ < S.capacity.toNat := hn
    omega
  | returned => exact Nat.le_refl _
  | unwinding hn => exact Nat.le_of_lt hn
  | joining _ hn => exact Nat.le_of_lt hn
  | threw => exact Nat.zero_le _
  | terminated hn => exact Nat.le_of_lt hn

/-- When the constructor returns, exactly so many. -/
theorem Sound.length_returned (h : Sound S pinning c) (hs : c.stage = .returned) :
    c.pool.length = S.capacity.toNat := by
  have hprogress := h.progress
  rw [hs] at hprogress
  generalize c.failed = failed, c.pool.length = n at hprogress ⊢
  cases hprogress
  rfl

/-- The `i`th pipeline has been given the arguments of round `i`. -/
theorem Sound.arguments {i : Nat} (h : Sound S pinning c) (hw : c.pool[i]? = some w) :
    w.arguments = S.arguments pinning (.ofNat 32 i) ∧ (BitVec.ofNat 32 i).toNat = i := by
  have hlt := (List.getElem?_eq_some_iff.mp hw).1
  have hle := h.length_le
  have hsmall := S.capacity.isLt
  refine ⟨(h.up i w hw).arguments, ?_⟩
  rw [BitVec.toNat_ofNat]
  exact Nat.mod_eq_of_lt (by omega)

/-! ## How the constructor gets on -/

theorem next_making {i : BitVec 32} {p : Lifetime} (hs : c.stage = .making i w)
    (hp : w.lifetime.construct = some p) (hget : p.ctor = .get) :
    (construction S pinning).next c .construct =
      some { c with stage := .making i { w with lifetime := p } } := by
  show c.construct S pinning = _
  unfold Construction.construct
  rw [hs]
  dsimp only
  rw [hp, Option.map_some, hget]

theorem next_made {i : BitVec 32} {p : Lifetime} (hs : c.stage = .making i w)
    (hp : w.lifetime.construct = some p) (hret : p.ctor = .returned) :
    (construction S pinning).next c .construct =
      some { c with stage := .loop (i + 1), pool := c.pool ++ [{ w with lifetime := p }] } := by
  show c.construct S pinning = _
  unfold Construction.construct
  rw [hs]
  dsimp only
  rw [hp, Option.map_some, hret]

theorem next_turn {i : BitVec 32} {t : Turn} (hs : c.stage = .making i w)
    (ht : w.turn t = some w') :
    (construction S pinning).next c (.worker c.pool.length t) =
      some { c with stage := .making i w' } := by
  show c.worker c.pool.length t = _
  unfold Construction.worker
  rw [List.getElem?_eq_none (Nat.le_refl _), hs]
  dsimp only
  rw [ht, Option.map_some]

/-- A pipeline whose thread has been started. -/
def Arguments.started (args : Arguments) : Worker :=
  ⟨args, { state := args.state, ctor := .get, run := .lock }⟩

/-- The loop begins a round, and the thread of the pipeline is started. -/
theorem reach_started {i : BitVec 32} (h : (construction S pinning).Reach (fun _ _ => True) c)
    (hs : c.stage = .loop i) (hi : i < S.capacity) :
    (construction S pinning).Reach (fun _ _ => True)
      { c with stage := .making i (S.arguments pinning i).started } := by
  have hbegin : (construction S pinning).next c .construct =
      some { c with stage := .making i (S.arguments pinning i).worker } := by
    show c.construct S pinning = _
    unfold Construction.construct
    rw [hs]
    exact if_pos hi
  have hfirst := h.step trivial hbegin
  have hsecond := hfirst.step trivial (next_making rfl rfl rfl)
  exact hsecond

/-- One round of the loop. -/
theorem reach_round {i : BitVec 32} (h : (construction S pinning).Reach (fun _ _ => True) c)
    (hs : c.stage = .loop i) (hi : i < S.capacity) :
    ∃ w, (construction S pinning).Reach (fun _ _ => True)
      { c with stage := .loop (i + 1), pool := c.pool ++ [w] } := by
  have hlock := (reach_started h hs hi).step trivial
    (next_turn (t := .run false) rfl rfl)
  have hguard := hlock.step trivial (next_turn (t := .run false) rfl rfl)
  have hvalue := hguard.step trivial (next_turn (t := .run false) rfl rfl)
  exact ⟨_, hvalue.step trivial (next_made rfl rfl rfl)⟩

/-- The counter of the loop is wide enough. -/
theorem ofNat_lt_capacity {k : Nat} (hk : k < S.capacity.toNat) :
    BitVec.ofNat 32 k < S.capacity := by
  have hsmall := S.capacity.isLt
  rw [BitVec.lt_def, BitVec.toNat_ofNat, Nat.mod_eq_of_lt (by omega)]
  exact hk

/-- The first pipelines can be constructed, any number of them. -/
theorem reach_loop (pinning : Option (List Int)) {k : Nat} (hk : k ≤ S.capacity.toNat) :
    ∃ c, (construction S pinning).Reach (fun _ _ => True) c ∧ c.stage = .loop (.ofNat 32 k) ∧
      c.pool.length = k := by
  induction k with
  | zero => exact ⟨{}, .start rfl, rfl, rfl⟩
  | succ k ih =>
    obtain ⟨c, h, hs, hlength⟩ := ih (by omega)
    obtain ⟨w, hround⟩ := reach_round h hs (ofNat_lt_capacity (by omega))
    refine ⟨_, hround, ?_, ?_⟩
    · show Stage.loop (BitVec.ofNat 32 k + 1) = _
      rw [BitVec.ofNat_add]
      rfl
    · rw [List.length_append, hlength]
      rfl

end Warlib.Threadpool
