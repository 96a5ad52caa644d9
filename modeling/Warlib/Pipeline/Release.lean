import Mathlib.Algebra.BigOperators.Group.List.Basic
import Warlib.Pipeline.Termination
import Warlib.Pipeline.Waiting

/-!
# `WaitUntilClosed` comes back

`Waiting.lean` says when `WaitUntilClosed` may return; this file says that it
does. What is left to do until then is finite: the effort of the worker
(`Termination.lean`), the statements of `Run` behind its loop, and two steps
for everybody who waits. And somebody can always take one of these steps,
whoever holds `waiter_`, unless the worker is stranded (`wait_progress`). So
when none is possible any more, nobody waits (`wait_terminates`).
-/

namespace Warlib.Pipeline

open Warlib.Machine

variable {name : String} {cap : BitVec 64} {n : Nat} {p p' : Lifetime} {t : Turn} {i : Nat}

/-! ## Somebody can go on -/

/-- A step of `Run`, of a `WaitUntilClosed` that has been called, or of the worker
inside is possible, user code on the worker included. -/
def Lifetime.CanTurn (name : String) (cap : BitVec 64) (n : Nat) (p : Lifetime) : Prop :=
  (∃ fails p', (lifetime name cap n).next p (.run fails) = some p') ∨
    (∃ i p', p.waiting i ≠ .idle ∧ (lifetime name cap n).next p (.wait i) = some p') ∨
    p.run = .loop ∧ Able p.state

/-- **Nobody waits for nothing.** While a client is in `WaitUntilClosed` of a
pipeline that was told to close, somebody can go on, or the worker is
stranded. -/
theorem wait_progress (h : (lifetime name cap n).Reach (fun _ _ => True) p)
    (hi : p.waiting i ≠ .idle) (hstop : .enqueued .stop ∈ p.state.mem.trace) :
    p.CanTurn name cap n ∨ ∃ id, Stranded p.state id := by
  have hshake := reach_handshake h
  have hinside := reach_inside h
  cases hw : p.waiter with
  | none =>
    -- whoever waits can have it
    have hlock : p.waiting i = .lock := by
      cases hpc : p.waiting i with
      | idle => exact absurd hpc hi
      | lock => rfl
      | unlock =>
        have hheld := (hshake.client i).mp hpc
        exact absurd (hw.symm.trans hheld) (by simp)
    have hacquire : p.waitUntilClosed i =
        some { p.setWaiting i .unlock with waiter := some (.client i) } := by
      rw [Lifetime.waitUntilClosed, hlock]
      simp only [hw]
    exact Or.inl (Or.inr (Or.inl ⟨i, _, hi, hacquire⟩))
  | some holder =>
    cases holder with
    | client j =>
      have hunlock : p.waiting j = .unlock := (hshake.client j).mpr hw
      have hrelease : p.waitUntilClosed j = some { p.setWaiting j .idle with waiter := none } := by
        rw [Lifetime.waitUntilClosed, hunlock]
      exact Or.inl (Or.inr (Or.inl ⟨j, _, by rw [hunlock]; simp, hrelease⟩))
    | worker =>
      have hholds := hshake.worker.mp hw
      have hruns : ∀ q, p.runStep false = some q → p.CanTurn name cap n :=
        fun q hq => Or.inl ⟨false, q, hq⟩
      cases hrun : p.run with
      | unborn => exact absurd hholds (by simp [hrun, RunPc.holds])
      | lock => exact absurd hholds (by simp [hrun, RunPc.holds])
      | done => exact absurd hholds (by simp [hrun, RunPc.holds])
      | guard => exact Or.inl (hruns _ (by rw [Lifetime.runStep, hrun]))
      | setValue => exact Or.inl (hruns _ (by rw [Lifetime.runStep, hrun]))
      | setException => exact Or.inl (hruns _ (by rw [Lifetime.runStep, hrun]))
      | unlock => exact Or.inl (hruns _ (by rw [Lifetime.runStep, hrun]))
      | loop =>
        -- `Run` waits for its loop: it has ended, or the worker can go on, or is stranded
        by_cases hend : p.state.threads[0]?.map Thread.frames = some []
        · refine Or.inl (hruns { p with run := .unlock } ?_)
          rw [Lifetime.runStep, hrun]
          exact if_pos hend
        by_cases hable : Able p.state
        · exact Or.inl (Or.inr (Or.inr ⟨hrun, hable⟩))
        rcases (blocked_iff hinside hend).mp hable with ⟨-, -, hno⟩ | hstranded
        · exact absurd hstop hno
        · exact Or.inr hstranded

/-! ## And not for ever -/

/-- The statements `Run` has before it, the loop counting as one. -/
@[simp] def RunPc.rank : RunPc → Nat
  | .unborn => 6
  | .lock => 5
  | .guard => 4
  | .setValue => 3
  | .setException => 2
  | .loop => 2
  | .unlock => 1
  | .done => 0

/-- The steps of a `WaitUntilClosed` that has been called. -/
@[simp] def WaitPc.rank : WaitPc → Nat
  | .idle => 0
  | .lock => 2
  | .unlock => 1

/-- What `Run` and everybody who waits have to do. -/
def Lifetime.rank (n : Nat) (p : Lifetime) : Nat :=
  p.run.rank + ((List.range (n + 1)).map fun i => (p.waiting i).rank).sum

/-- Nobody calls `WaitUntilClosed` anew. -/
def NoNewWait (p : Lifetime) : Turn → Prop
  | .wait i => p.waiting i ≠ .idle
  | _ => True

instance (p : Lifetime) (t : Turn) : Decidable (NoNewWait p t) :=
  match t with
  | .construct => inferInstanceAs (Decidable True)
  | .run _ => inferInstanceAs (Decidable True)
  | .wait i => inferInstanceAs (Decidable (p.waiting i ≠ .idle))
  | .step _ => inferInstanceAs (Decidable True)

/-- A statement of `Run` or of `WaitUntilClosed`. -/
def Turn.aside : Turn → Nat
  | .run _ => 1
  | .wait _ => 1
  | _ => 0

/-- The step inside. -/
def Turn.inside? : Turn → Option Step
  | .step l => some l
  | _ => none

/-- Only the threads there are wait. -/
theorem reach_waiting (h : (lifetime name cap n).Reach (fun _ _ => True) p) :
    ∀ i, p.waiting i ≠ .idle → i < n + 1 := by
  refine h.invariant (I := fun p => ∀ i, p.waiting i ≠ .idle → i < n + 1) ?_ ?_
  · intro p hinit i hi
    obtain ⟨rfl, -⟩ := hinit
    exact absurd rfl hi
  · intro p t p' hr _ hnext hI i hi
    have hset : ∀ j pc, j < n + 1 → (p.setWaiting j pc).waiting i ≠ .idle → i < n + 1 := by
      intro j pc hj hi
      by_cases hij : i = j
      · omega
      · rw [Lifetime.setWaiting] at hi
        exact hI i (by simpa [hij] using hi)
    cases turned_of_next hnext with
    | @call j hj hc hth =>
      refine hset j .lock ?_ hi
      obtain ⟨th, hth, -⟩ := Option.map_eq_some_iff.mp hth
      have hlen := reach_threads (reach_inside hr)
      have hlt := (List.getElem?_eq_some_iff.mp hth).1
      omega
    | @acquire j hj hw => exact hset j .unlock (hI j (by rw [hj]; simp)) hi
    | @release j hj => exact hset j .idle (hI j (by rw [hj]; simp)) hi
    | _ => exact hI i hi

/-- One who waits moves on: the sum of the ranks changes by what it does. -/
theorem sum_setWaiting (p : Lifetime) {N : Nat} {i : Nat} (hi : i < N) (pc : WaitPc) :
    ((List.range N).map fun j => ((p.setWaiting i pc).waiting j).rank).sum + (p.waiting i).rank =
      ((List.range N).map fun j => (p.waiting j).rank).sum + pc.rank := by
  induction N with
  | zero => exact absurd hi (Nat.not_lt_zero _)
  | succ N ih =>
    rw [List.range_succ, List.map_append, List.map_append, List.sum_append, List.sum_append,
      List.map_singleton, List.map_singleton, List.sum_singleton, List.sum_singleton]
    by_cases hiN : i = N
    · subst hiN
      have hbelow : ((List.range i).map fun j => ((p.setWaiting i pc).waiting j).rank) =
          (List.range i).map fun j => (p.waiting j).rank := by
        refine List.map_congr_left fun j hj => ?_
        have hne : j ≠ i := Nat.ne_of_lt (List.mem_range.mp hj)
        simp [hne]
      rw [hbelow]
      simp
      omega
    · have hlt : i < N := by omega
      have hsame : ((p.setWaiting i pc).waiting N).rank = (p.waiting N).rank := by
        have hne : N ≠ i := fun he => hiN he.symm
        simp [hne]
      have hrec := ih hlt
      rw [hsame]
      omega

/-- Every statement of `Run` or `WaitUntilClosed` is one less to come. -/
theorem Turned.rank (hshake : Handshake p) (hwaiting : ∀ i, p.waiting i ≠ .idle → i < n + 1)
    (hok : NoNewWait p t) (h : Turned name cap n p t p') :
    p'.rank n + t.aside ≤ p.rank n := by
  have hrun : ∀ run : RunPc, run.rank + 1 ≤ p.run.rank →
      run.rank + ((List.range (n + 1)).map fun i => (p.waiting i).rank).sum + 1 ≤ p.rank n := by
    intro run hle
    unfold Lifetime.rank
    omega
  cases h with
  | start hc =>
    have hunborn := hshake.unborn hc
    simp [Lifetime.rank, Turn.aside, hunborn]
  | returned hc hs => exact Nat.le_refl _
  | rethrew hc hs => exact Nat.le_refl _
  | lock hr hw => exact hrun .guard (by rw [hr]; exact Nat.le_refl _)
  | guarded hr => exact hrun .setValue (by rw [hr]; exact Nat.le_refl _)
  | unguarded hr => exact hrun .setException (by rw [hr]; simp)
  | setValue hr => exact hrun .loop (by rw [hr]; exact Nat.le_refl _)
  | setException hr => exact hrun .unlock (by rw [hr]; exact Nat.le_refl _)
  | left hr hend => exact hrun .unlock (by rw [hr]; exact Nat.le_refl _)
  | unlock hr => exact hrun .done (by rw [hr]; exact Nat.le_refl _)
  | call hi hc hth => exact absurd hi hok
  | @acquire i hi hw =>
    have hsum := sum_setWaiting p (hwaiting i (by rw [hi]; simp)) .unlock
    rw [hi] at hsum
    show p.run.rank + _ + 1 ≤ p.run.rank + _
    simp only [WaitPc.rank] at hsum ⊢
    omega
  | @release i hi =>
    have hsum := sum_setWaiting p (hwaiting i (by rw [hi]; simp)) .idle
    rw [hi] at hsum
    show p.run.rank + _ + 1 ≤ p.run.rank + _
    simp only [WaitPc.rank] at hsum ⊢
    omega
  | step hl hn => exact Nat.le_refl _

/-- What happens inside during a run is a run of the machine. -/
theorem inside_run {ok : Lifetime → Turn → Prop} [∀ p t, Decidable (ok p t)] {ts : List Turn}
    (hrun : (lifetime name cap n).guardedRun ok p ts = some p') :
    (machine name cap n).guardedRun (fun _ _ => True) p.state (ts.filterMap Turn.inside?) =
      some p'.state := by
  induction ts generalizing p with
  | nil =>
    rw [Lts.guardedRun, Option.some.injEq] at hrun
    rw [hrun]
    rfl
  | cons t ts ih =>
    obtain ⟨-, p₁, hnext, hrest⟩ := Lts.guardedRun_cons hrun
    have hlater := ih hrest
    have hturned := turned_of_next hnext
    cases hturned with
    | @step l s hl hn =>
      show (machine name cap n).guardedRun _ p.state (l :: ts.filterMap Turn.inside?) = _
      rw [Lts.guardedRun, if_pos trivial, hn]
      exact hlater
    | _ =>
      rw [List.filterMap_cons_none rfl]
      exact hlater

/-- **`WaitUntilClosed` comes back.** From a state in which a shutdown handler is
queued, behind `ahead`, every schedule in which nobody calls `WaitUntilClosed`
anew has a bounded number of steps of `Run`, of those who wait and of the
pipeline's own code on the worker, user code on the worker apart. And when `Run`
and those who wait have no next step, nor the worker, in the pipeline's code or
in user code (`Able`), nobody is in `WaitUntilClosed`, or the worker is
stranded. -/
theorem wait_terminates (h : (lifetime name cap n).Reach (fun _ _ => True) p)
    {ahead behind : List Handler} (hq : p.state.mem.queue = ahead ++ .stop :: behind)
    {ts : List Turn} (hrun : (lifetime name cap n).guardedRun NoNewWait p ts = some p') :
    (ts.map Turn.aside).sum + ((ts.filterMap Turn.inside?).map ownCode).sum ≤
        p.rank n + effort p.state + 14 * (ahead.length + 1) +
          14 * ((ts.filterMap Turn.inside?).map userCode).sum ∧
      (¬p'.CanTurn name cap n →
        (∀ i, p'.waiting i = .idle) ∨ ∃ id, Stranded p'.state id) := by
  have hinside := inside_run hrun
  obtain ⟨hr', haside⟩ := Lts.guardedRun_potential
    (I := fun p => (lifetime name cap n).Reach (fun _ _ => True) p)
    (Φ := fun p => p.rank n) (Γ := fun _ => 0) Turn.aside (fun _ => 0)
    (fun p t p' hr hok hnext => by
      refine ⟨.step hr trivial hnext, ?_⟩
      exact (turned_of_next hnext).rank (reach_handshake hr) (reach_waiting hr) hok) h hrun
  refine ⟨?_, fun hno => ?_⟩
  · have hworker := (shutdown_terminates (reach_inside h) hq hinside).1
    have hnone : (ts.map fun _ => 0).sum = 0 := by simp
    omega
  · by_cases hwaits : ∀ i, p'.waiting i = .idle
    · exact Or.inl hwaits
    · obtain ⟨i, hi⟩ := not_forall.mp hwaits
      have hstop : .enqueued .stop ∈ p.state.mem.trace := by
        refine mem_enqueued.mp ?_
        show .stop ∈ p.state.mem.enqueued
        rw [reach_fifo (reach_inside h), hq]
        simp
      have hprogress := wait_progress hr' hi ((run_later hinside).subset hstop)
      exact Or.inr (hprogress.resolve_left hno)

/-- One client closes the pipeline while another waits; the worker ends, `Run` gives
`waiter_` back, and the client takes it and returns. Nothing is left to do, and
nobody waits. -/
theorem wait_terminates_one : ∃ p p' : Lifetime,
    (lifetime "tasks" 1 2).Reach (fun _ _ => True) p ∧ p.waiting 2 = .lock ∧
      ¬p'.CanTurn "tasks" 1 2 ∧
      10 ≤ p.rank 2 + effort p.state + 14 * (([] : List Handler).length + 1) + 14 * 0 ∧
      ∀ i, p'.waiting i = .idle := by
  let before : List Turn := [.construct, .run false, .run false, .run false, .construct, .wait 2,
    .step (.thread 1 (.call .close)), .step (.thread 1 .code), .step (.thread 1 .code),
    .step (.thread 1 .code)]
  let after : List Turn := List.replicate 6 (.step (.thread 0 .code)) ++
    [.run false, .run false, .wait 2, .wait 2]
  have hrun : ∃ p p' : Lifetime, (lifetime "tasks" 1 2).guardedRun (fun _ _ => True)
      { state := initial "tasks" 1 2 } before = some p ∧ p.waiting 2 = .lock ∧
      p.state.mem.queue = [] ++ .stop :: [] ∧
      (lifetime "tasks" 1 2).guardedRun NoNewWait p after = some p' ∧ p'.run = .done ∧
      (∀ i < 3, p'.waiting i = .idle) ∧ p'.state.threads[0]? = some ⟨.ret, []⟩ :=
    ⟨_, _, rfl, rfl, rfl, rfl, rfl, by decide, rfl⟩
  obtain ⟨p, p', hp, hlock, hq, hp', hdone, hidle, hth⟩ := hrun
  have hreach : (lifetime "tasks" 1 2).Reach (fun _ _ => True) p :=
    Lts.reach_of_guardedRun (.start ⟨rfl, by decide⟩) hp
  have hreach' : (lifetime "tasks" 1 2).Reach (fun _ _ => True) p' :=
    (Lts.guardedRun_invariant (fun _ _ _ hr _ hn => .step hr trivial hn) hreach hp')
  have hno : ¬p'.CanTurn "tasks" 1 2 := by
    rintro (⟨fails, q, hnext⟩ | ⟨i, q, hi, -⟩ | ⟨hloop, -⟩)
    · have hstep : p'.runStep fails = some q := hnext
      simp [Lifetime.runStep, hdone] at hstep
    · exact hi (hidle i (reach_waiting hreach' i hi))
    · exact absurd (hdone.symm.trans hloop) (by simp)
  obtain ⟨hbound, hend⟩ := wait_terminates hreach hq hp'
  refine ⟨p, p', hreach, hlock, hno, hbound, (hend hno).resolve_right ?_⟩
  rintro ⟨id, ⟨ctl, rest, hth'⟩, -⟩
  rw [hth] at hth'
  simp at hth'

end Warlib.Pipeline
