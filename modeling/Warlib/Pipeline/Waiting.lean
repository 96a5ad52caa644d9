import Warlib.Pipeline.Closing
import Warlib.Pipeline.Lifecycle
import Warlib.Pipeline.Lifetime
import Warlib.Pipeline.Shutdown

/-!
# Waiting for the end

`WaitUntilClosed` does nothing but lock `waiter_`. That this waits for anything
rests on the worker having locked it first, which the constructor waits for
through `sync`.

`Handshake` is the invariant: who holds `waiter_`, and how far `Run` has got
when the constructor has returned. So whoever gets `waiter_` on a constructed
pipeline gets it from a worker that is through (`Handshake.holder`). The
worker gets through by way of the shutdown handler only, which has set
`closed_` (`reach_ended`); and what holds then holds for good: `Ended` is kept
by every step, and no function of a task begins any more (`ended_steps`).
-/

namespace Warlib.Pipeline

open Warlib.Machine

variable {name : String} {cap : BitVec 64} {n : Nat} {ok : State → Step → Prop}
  {s s' : State} {l : Step} {i : Nat} {m m' : Mem} {a : Act} {ctl : Ctl Exn} {f : Frame}
  {rest : List Frame} {nx : Next Frame Exn} {p p' : Lifetime} {t : Turn}

/-! ## The end of the loop -/

/-- `ExecTask_` and what it runs. -/
def Frame.inTask : Frame → Bool
  | .fn _ => true
  | .execTask .. => true
  | .syncCarrier .. => true
  | .promiseCarrier .. => true
  | _ => false

/-- The functions that have begun. -/
def Mem.begun (m : Mem) : List Event := m.trace.filter Event.isBegan

/-- `closed_` is set, the worker's loop has ended, and no task is running. -/
structure Ended (s : State) : Prop where
  closed : s.mem.closed = true
  ended : s.threads[0]?.map Thread.frames = some []
  idle : ∀ th ∈ s.threads, ∀ f ∈ th.frames, f.inTask = false

/-- `io_context::stop()` is the last statement of the shutdown handler. -/
theorem Move.stops (h : Move i m a ctl f m' nx) :
    m'.stopped = m.stopped ∨ (f = .stopHandler .stop ∧ m'.stopped = true) := by
  cases h <;> first
    | exact Or.inl rfl
    | exact Or.inr ⟨rfl, rfl⟩

/-- `run()` returns because of it only once it was called. -/
theorem Move.leaves (h : Move i m a ctl f m' nx) (hend : .stopped ∈ m'.ends) :
    .stopped ∈ m.ends ∨ m.stopped = true := by
  rcases h.ends with hsame | rfl
  · rw [hsame] at hend
    exact Or.inl hend
  · cases h
    case run_stopped hs hctl => exact Or.inr hs
    all_goals exact Or.inl (by simpa [Mem.ends, List.filterMap_cons] using hend)

/-- A stopped `io_context` belongs to a closed pipeline. -/
theorem reach_stopped (h : (machine name cap n).Reach ok s) (hs : s.mem.stopped = true) :
    s.mem.closed = true := by
  refine reach_invariant (I := fun s => s.mem.stopped = true → s.mem.closed = true) h ?_ ?_ hs
  · intro hs
    exact absurd hs (by simp [initial])
  · intro s l s' hr _ hstep _ hI hs'
    have hkeep := hstep.closed
    cases hstep with
    | @move i a ctl f rest m nx hth hm =>
      rcases hm.stops with hsame | ⟨rfl, -⟩
      · exact hkeep (hI (hsame ▸ hs'))
      · -- the handler has set `closed_` two statements before
        obtain rfl : i = 0 := reach_worker hr hth rfl
        apply hkeep
        cases reach_phase hr _ hth with
        | working hfs hstop => exact absurd (List.mem_cons_self ..) (hstop .stop)
        | stopping hlast hclosed => exact hclosed
    | expire _ => exact hkeep (hI hs')

/-- Once the worker's loop has ended, `closed_` is set. -/
theorem reach_ended_closed (h : (machine name cap n).Reach ok s)
    (hend : s.threads[0]?.map Thread.frames = some []) : s.mem.closed = true := by
  have hstopped : .stopped ∈ s.mem.ends → s.mem.stopped = true := by
    refine reach_invariant (I := fun s => .stopped ∈ s.mem.ends → s.mem.stopped = true) h ?_ ?_
    · intro hmem
      exact absurd hmem (by simp [initial, Mem.ends])
    · intro s l s' _ _ hstep _ hI hmem
      cases hstep with
      | move hth hm =>
        have hs : s.mem.stopped = true := by
          rcases hm.leaves hmem with hold | hs
          · exact hI hold
          · exact hs
        rcases hm.stops with hsame | ⟨-, hset⟩
        · exact hsame.trans hs
        · exact hset
      | expire _ => exact hI (by simpa [Mem.ends, List.filterMap_cons] using hmem)
  obtain ⟨th, hth, hnil⟩ := Option.map_eq_some_iff.mp hend
  have hphase := reach_phase h th hth
  rw [hnil] at hphase
  cases hphase with
  | working hfs => exact absurd rfl hfs
  | ended hlast hends =>
    apply reach_stopped h
    apply hstopped
    rw [hends]
    exact List.mem_cons_self ..

/-- With the worker's loop, everything has ended. -/
theorem reach_ended (h : (machine name cap n).Reach ok s)
    (hend : s.threads[0]?.map Thread.frames = some []) : Ended s := by
  refine ⟨reach_ended_closed h hend, hend, fun th hmem f hf => ?_⟩
  obtain ⟨j, hj⟩ := List.getElem?_of_mem hmem
  by_cases hj0 : j = 0
  · rw [hj0] at hj
    rw [hj, Option.map_some, Option.some.injEq] at hend
    exact absurd (hend ▸ hf) (by simp)
  · have hclient := reach_onClient h j th hj hj0 f hf
    cases f <;> simp_all [Frame.onClient, Frame.inTask]

/-- What has ended stays so, and no function of a task begins. -/
theorem Stepped.ended (hr : (machine name cap n).Reach ok s) (hs : Stepped s l s')
    (hend : s.threads[0]?.map Thread.frames = some []) :
    s'.threads[0]?.map Thread.frames = some [] ∧ s'.mem.begun = s.mem.begun := by
  cases hs with
  | @move i a ctl f rest m nx hth hm =>
    have hi : i ≠ 0 := by
      rintro rfl
      rw [hth] at hend
      exact absurd hend (by simp)
    have hclient := reach_onClient hr i _ hth hi f (List.mem_cons_self ..)
    refine ⟨?_, ?_⟩
    · show (s.threads.set i _)[0]?.map Thread.frames = some []
      rw [List.getElem?_set_ne hi]
      exact hend
    · show m.trace.filter Event.isBegan = s.mem.trace.filter Event.isBegan
      rcases hm.emits with hsame | ⟨e, he⟩
      · rw [hsame]
      · have hnot : e.isBegan = false := by
          have hsource := hm.source he
          cases e with
          | began t c =>
            obtain ⟨ac, rfl⟩ := hsource
            exact absurd hclient (by simp [Frame.onClient])
          | _ => rfl
        rw [he, List.filter_append, List.filter_cons_of_neg (by rw [hnot]; simp),
          List.filter_nil, List.append_nil]
  | expire _ => exact ⟨hend, by simp [Mem.begun]⟩

/-! ## The handshake -/

/-- `Run` is between taking and giving back `waiter_`. -/
def RunPc.holds : RunPc → Bool
  | .guard | .setValue | .setException | .loop | .unlock => true
  | .unborn | .lock | .done => false

/-- `Run` is past `sync.set_value()`, or past `sync.set_exception(..)`. -/
def RunPc.told : RunPc → Bool
  | .loop | .unlock | .done => true
  | .unborn | .lock | .guard | .setValue | .setException => false

/-- `Run` is past the loop. -/
def RunPc.through : RunPc → Bool
  | .unlock | .done => true
  | _ => false

/-- Who holds `waiter_`, and what the constructor has waited for. -/
structure Handshake (p : Lifetime) : Prop where
  unborn : p.ctor = .start → p.run = .unborn
  worker : p.waiter = some .worker ↔ p.run.holds = true
  client : ∀ i, p.waiting i = .unlock ↔ p.waiter = some (.client i)
  used : ∀ i, p.waiting i ≠ .idle → p.ctor = .returned
  ready : p.ctor = .returned → p.sync = some true
  told : p.sync = some true → p.run.told = true
  through : p.sync = some true → p.run.through = true →
    p.state.threads[0]?.map Thread.frames = some []

/-- `Run` goes on before its loop: nobody has been told anything. -/
theorem Handshake.untold (h : Handshake p) (hrun : p.run.told = false) :
    p.sync ≠ some true ∧ p.ctor ≠ .returned ∧ ∀ i, p.waiting i = .idle := by
  have hs : p.sync ≠ some true := fun hs => by
    have htold := h.told hs
    rw [hrun] at htold
    exact absurd htold (by simp)
  have hc : p.ctor ≠ .returned := fun hc => hs (h.ready hc)
  refine ⟨hs, hc, fun i => ?_⟩
  by_contra hi
  exact hc (h.used i hi)

/-- A worker of a constructed pipeline that has not ended is in its loop. -/
theorem Handshake.loop (h : Handshake p) (hc : p.ctor = .returned)
    (halive : p.state.threads[0]?.map Thread.frames ≠ some []) : p.run = .loop := by
  have hsync := h.ready hc
  have htold := h.told hsync
  have hnot : p.run.through ≠ true := fun ht => halive (h.through hsync ht)
  cases hrun : p.run with
  | loop => rfl
  | unborn | lock | guard | setValue | setException =>
    rw [hrun] at htold
    exact absurd htold (by simp [RunPc.told])
  | unlock | done =>
    rw [hrun] at hnot
    exact absurd rfl hnot

/-- Nobody gets `waiter_` from a worker that has it. -/
theorem Handshake.held (h : Handshake p) (hw : p.waiter = some .worker)
    (hi : p.waiting i ≠ .idle) : p.waitUntilClosed i = none := by
  rw [Lifetime.waitUntilClosed]
  cases hpc : p.waiting i with
  | idle => exact absurd hpc hi
  | lock => simp only [hw]
  | unlock =>
    have hheld := (h.client i).mp hpc
    exact absurd (hw.symm.trans hheld) (by simp)

/-- `Run` has begun: so has the constructor. -/
theorem Handshake.born (h : Handshake p) {run : RunPc} (hrun : p.run = run) (hne : run ≠ .unborn) :
    p.ctor ≠ .start :=
  fun hc => hne (hrun.symm.trans (h.unborn hc))

/-- One step of the constructor, of `Run`, of `WaitUntilClosed`, or inside. -/
theorem Turned.handshake (hr : (machine name cap n).Reach (fun _ _ => True) p.state)
    (h : Turned name cap n p t p') (hI : Handshake p) : Handshake p' := by
  obtain ⟨hunborn, hworker, hclient, hused, hready, htold, hthrough⟩ := id hI
  cases h with
  | start hc =>
    have hrun := hunborn hc
    obtain ⟨hs, -, hidle⟩ := hI.untold (by rw [hrun]; rfl)
    rw [hrun] at hworker
    exact ⟨by simp, hworker, hclient, fun i hi => absurd (hidle i) hi, by simp,
      fun h => absurd h hs, fun h => absurd h hs⟩
  | returned hc hs =>
    exact ⟨by simp, hworker, hclient, fun _ _ => rfl, fun _ => hs, htold, hthrough⟩
  | rethrew hc hs =>
    have hidle : ∀ i, p.waiting i = .idle := by
      intro i
      by_contra hi
      exact absurd ((hused i hi).symm.trans hc) (by simp)
    exact ⟨by simp, hworker, hclient, fun i hi => absurd (hidle i) hi, by simp, htold, hthrough⟩
  | lock hrun hw =>
    obtain ⟨hs, hc, hidle⟩ := hI.untold (by rw [hrun]; rfl)
    refine ⟨fun hc => absurd hc (hI.born hrun (by simp)), by simp [RunPc.holds], fun i => ?_, hused,
      hready, fun h => absurd h hs, fun h => absurd h hs⟩
    simp [hidle i]
  | guarded hrun | unguarded hrun =>
    obtain ⟨hs, hc, hidle⟩ := hI.untold (by rw [hrun]; rfl)
    rw [hrun] at hworker
    exact ⟨fun hc => absurd hc (hI.born hrun (by simp)), hworker, hclient, hused, hready,
      fun h => absurd h hs, fun h => absurd h hs⟩
  | setValue hrun =>
    rw [hrun] at hworker
    exact ⟨fun hc => absurd hc (hI.born hrun (by simp)), hworker, hclient, hused, fun _ => rfl,
      fun _ => rfl, by simp [RunPc.through]⟩
  | setException hrun =>
    obtain ⟨hs, hc, hidle⟩ := hI.untold (by rw [hrun]; rfl)
    rw [hrun] at hworker
    exact ⟨fun hc => absurd hc (hI.born hrun (by simp)), hworker, hclient, hused,
      fun h => absurd h hc, by simp, by simp⟩
  | left hrun hend =>
    rw [hrun] at hworker
    exact ⟨fun hc => absurd hc (hI.born hrun (by simp)), hworker, hclient, hused, hready,
      fun _ => rfl, fun _ _ => hend⟩
  | unlock hrun =>
    rw [hrun] at hworker hthrough
    have hheld : p.waiter = some .worker := hworker.mpr rfl
    refine ⟨fun hc => absurd hc (hI.born hrun (by simp)), by simp [RunPc.holds], fun i => ?_, hused,
      hready, fun _ => rfl, fun hs _ => hthrough hs rfl⟩
    -- the worker held it, so no client did
    have hno := (hclient i).not
    rw [hheld] at hno
    simpa using hno
  | @call i hi hc hth =>
    refine ⟨hunborn, hworker, fun j => ?_, fun j _ => hc, hready, htold, hthrough⟩
    by_cases hj : j = i
    · subst hj
      have hno := hclient j
      rw [hi] at hno
      simpa using hno
    · simpa [hj] using hclient j
  | @acquire i hi hw =>
    have hc : p.ctor = .returned := hused i (by rw [hi]; simp)
    refine ⟨hunborn, ?_, fun j => ?_, fun _ _ => hc, hready, htold, hthrough⟩
    · rw [hw] at hworker
      simpa using hworker
    · by_cases hj : j = i
      · simp [hj]
      · have hno := hclient j
        rw [hw] at hno
        simpa [hj, Ne.symm hj] using hno
  | @release i hi =>
    have hc : p.ctor = .returned := hused i (by rw [hi]; simp)
    have hheld := (hclient i).mp hi
    refine ⟨hunborn, ?_, fun j => ?_, fun _ _ => hc, hready, htold, hthrough⟩
    · rw [hheld] at hworker
      simpa using hworker
    · by_cases hj : j = i
      · simp [hj]
      · have hno := hclient j
        rw [hheld] at hno
        simpa [hj, Ne.symm hj] using hno
  | step hl hn =>
    refine ⟨hunborn, hworker, hclient, hused, hready, htold, fun hs ht => ?_⟩
    exact ((stepped_of_next hn).1.ended hr (hthrough hs ht)).1

theorem reach_handshake {ok : Lifetime → Turn → Prop} (h : (lifetime name cap n).Reach ok p) :
    Handshake p := by
  refine h.invariant (I := Handshake) ?_ ?_
  · intro p hinit
    obtain ⟨rfl, -⟩ := hinit
    exact ⟨fun _ => rfl, by simp [RunPc.holds], by simp, by simp, by simp, by simp, by simp⟩
  · intro p t p' hreach _ hnext hI
    exact (turned_of_next hnext).handshake (reach_inside hreach) hI

/-- Past `sync`, and without `waiter_`: `Run` is over. -/
theorem RunPc.through_of_told {run : RunPc} (htold : run.told = true) (hfree : ¬run.holds = true) :
    run.through = true := by
  cases run with
  | done => rfl
  | unlock => rfl
  | loop => exact absurd rfl hfree
  | _ => exact absurd htold (by simp [RunPc.told])

/-- A client that has got `waiter_` has got it from a worker that is through. -/
theorem Handshake.holder (h : Handshake p) (hi : p.waiting i = .unlock) :
    p.state.threads[0]?.map Thread.frames = some [] := by
  have hsync : p.sync = some true := h.ready (h.used i (by rw [hi]; simp))
  have hfree : ¬p.run.holds = true := by
    rw [← h.worker, (h.client i).mp hi]
    simp
  exact h.through hsync (RunPc.through_of_told (h.told hsync) hfree)

/-! ## What has ended has ended for good -/

/-- No step of a pipeline that has ended revives it, or begins a task. -/
theorem ended_step (hr : (lifetime name cap n).Reach (fun _ _ => True) p)
    (hnext : (lifetime name cap n).next p t = some p') (hend : Ended p.state) :
    Ended p'.state ∧ p'.state.mem.begun = p.state.mem.begun := by
  rcases (turned_of_next hnext).inside with hsame | ⟨l, -, -, hn⟩
  · rw [hsame]
    exact ⟨hend, rfl⟩
  · obtain ⟨hend', hbegun⟩ := (stepped_of_next hn).1.ended (reach_inside hr) hend.ended
    exact ⟨reach_ended (reach_inside (.step hr trivial hnext)) hend', hbegun⟩

/-- Nor do any number of them. -/
theorem ended_steps (hr : (lifetime name cap n).Reach (fun _ _ => True) p) (hend : Ended p.state)
    (hs : (lifetime name cap n).Steps p p') :
    Ended p'.state ∧ p'.state.mem.begun = p.state.mem.begun := by
  induction hs with
  | refl => exact ⟨hend, rfl⟩
  | @tail p₁ p₂ t hsteps hnext ih =>
    obtain ⟨hend₁, hbegun₁⟩ := ih
    have hr₁ := hr.steps (fun _ _ => trivial) hsteps
    obtain ⟨hend₂, hbegun₂⟩ := ended_step hr₁ hnext hend₁
    exact ⟨hend₂, hbegun₂.trans hbegun₁⟩

/-- A client is in `WaitUntilClosed` until the pipeline has ended. -/
theorem waits_step (hr : (lifetime name cap n).Reach (fun _ _ => True) p)
    (hnext : (lifetime name cap n).next p t = some p')
    (hI : p.waiting i ≠ .idle ∨ Ended p.state) : p'.waiting i ≠ .idle ∨ Ended p'.state := by
  rcases hI with hi | hend
  · have hset : ∀ j pc, pc ≠ .idle → (p.setWaiting j pc).waiting i ≠ .idle := by
      intro j pc hpc
      by_cases hij : i = j
      · simpa [hij] using hpc
      · simpa [hij] using hi
    cases turned_of_next hnext with
    | call hj hc hth => exact Or.inl (hset _ .lock (by simp))
    | acquire hj hw => exact Or.inl (hset _ .unlock (by simp))
    | @release j hj =>
      -- whoever returns held `waiter_`
      have hend : Ended p.state := reach_ended (reach_inside hr) ((reach_handshake hr).holder hj)
      exact Or.inr hend
    | _ => exact Or.inl hi
  · exact Or.inr (ended_step hr hnext hend).1

/-- `WaitUntilClosed` returns when the pipeline has ended, for good. -/
theorem wait_returns (hr : (lifetime name cap n).Reach (fun _ _ => True) p)
    (hnext : (lifetime name cap n).next p (.wait i) = some p') (hi : p'.waiting i = .idle) :
    Ended p'.state ∧ ∀ p'', (lifetime name cap n).Steps p' p'' →
      Ended p''.state ∧ p''.state.mem.begun = p'.state.mem.begun := by
  have hr' := hr.step trivial hnext
  have hend : Ended p'.state := by
    have hwaits : p.waiting i ≠ .idle := by
      cases turned_of_next hnext with
      | call hj hc hth => exact absurd hi (by simp)
      | acquire hj hw => exact absurd hi (by simp)
      | release hj => rw [hj]; simp
    rcases waits_step hr hnext (Or.inl hwaits) with hstill | hend
    · exact absurd hi hstill
    · exact hend
  exact ⟨hend, fun p'' hs => ended_steps hr' hend hs⟩

end Warlib.Pipeline
